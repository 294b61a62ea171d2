import Editing.Proofs.Session.Positions
import Editing.Proofs.Session.Revising
import Editing.Proofs.Text.Parts

/-!
# What overlays cover

The bounds of an overlay cut the text into what lies before it, what it covers and what lies after
it. A deletion takes its characters out of these three parts; an insertion goes into the covered
part if the overlay takes it in, and otherwise into one of the parts beside it. So an overlay keeps
the characters that it covers, as far as they are not deleted.
-/

namespace Editing

namespace Overlay

/-- Whether the overlay takes in what is inserted at a position. Inside it always does, and at a
bound if this bound stays outside; where nothing is covered, both bounds have to. -/
def TakesIn (o : Overlay) (pos : Nat) : Prop :=
  if o.start < o.stop then
    o.start < pos ∧ pos < o.stop ∨ pos = o.start ∧ o.frontAdvance = false ∨
      pos = o.stop ∧ o.rearAdvance = true
  else pos = o.start ∧ o.frontAdvance = false ∧ o.rearAdvance = true

/-- A text before an overlay, in it and after it. -/
def parts (o : Overlay) (t : Text) : Text × Text × Text :=
  t.parts o.start o.stop

/-- Whether a change of the text makes the one triple of parts into the other one. -/
def Parted (o : Overlay) (c : Change) (old new : Text × Text × Text) : Prop :=
  let (before, covered, after) := old
  match c with
  | .insert pos added =>
      (o.TakesIn pos → new = (before, covered.insert (pos - o.start) added, after)) ∧
        (¬o.TakesIn pos →
          pos ≤ o.start ∧ new = (before.insert pos added, covered, after) ∨
            o.stop ≤ pos ∧ new = (before, covered, after.insert (pos - o.stop) added))
  | .delete start stop =>
      new = (Text.without start stop 0 before, Text.without start stop o.start covered,
        Text.without start stop o.stop after)
  | .property .. => new = old

variable {o : Overlay} {t : Text}

theorem takesIn_iff_between (h : o.start ≤ o.stop) (pos : Nat) :
    o.TakesIn pos ↔ Position.Between o.frontAdvance o.rearAdvance pos o.start o.stop := by
  by_cases hlt : o.start < o.stop
  · rw [TakesIn, if_pos hlt, Position.Between]
    grind
  · rw [TakesIn, if_neg hlt, Position.Between]
    grind

/-- An insertion beside an overlay is on one side of it. -/
theorem apart_of_not_takesIn {pos : Nat} (h : ¬o.TakesIn pos) : pos ≤ o.start ∨ o.stop ≤ pos := by
  rcases Nat.lt_or_ge o.start pos with hstart | hstart
  · rcases Nat.lt_or_ge pos o.stop with hstop | hstop
    · rw [TakesIn, if_pos (Nat.lt_trans hstart hstop)] at h
      exact absurd (.inl ⟨hstart, hstop⟩) h
    · exact .inr hstop
  · exact .inl hstart

/-! ## An overlay after a change -/

theorem parted_insert (hle : o.start ≤ o.stop) (hin : o.stop ≤ t.length) (pos : Nat)
    (added : Text) :
    o.Parted (.insert pos added) (o.parts t)
      ((o.afterInsert pos added.length).parts (t.insert pos added)) := by
  obtain ⟨start, stop, front, rear, properties⟩ := o
  by_cases hord : Position.afterInsert front pos added.length start ≤
      Position.afterInsert rear pos added.length stop
  · obtain ⟨hinside, hbeside⟩ := Text.parts_insert front rear hle hin added hord
    have hparts : (afterInsert ⟨start, stop, front, rear, properties⟩ pos added.length).parts
        (t.insert pos added) = Text.parts (t.insert pos added)
          (Position.afterInsert front pos added.length start)
          (Position.afterInsert rear pos added.length stop) := by
      rw [parts, afterInsert, Nat.min_eq_left hord]
    rw [Parted, hparts, takesIn_iff_between hle]
    exact ⟨hinside, hbeside⟩
  · -- Only the start of an empty overlay would pass the end, and it is held back there.
    obtain ⟨rfl, rfl, rfl, rfl⟩ : start = stop ∧ start = pos ∧ front = true ∧ rear = false := by
      simp only [Position.afterInsert] at hord hle
      grind
    have hstop : Position.afterInsert false start added.length start = start := by
      simp [Position.afterInsert]
    have hstart : min (Position.afterInsert true start added.length start) start = start := by
      simp [Position.afterInsert]
    have hparts : (afterInsert ⟨start, start, true, false, properties⟩ start added.length).parts
        (t.insert start added) = Text.parts (t.insert start added) start start := by
      rw [parts, afterInsert, hstop, hstart]
    obtain ⟨-, hbeside⟩ := Text.parts_insert false false hle hin added (Nat.le_refl _)
    rw [hstop] at hbeside
    rw [Parted, hparts, takesIn_iff_between hle]
    exact ⟨fun h => by simp [Position.Between] at h, fun _ => hbeside (by simp [Position.Between])⟩

theorem parted_delete (hle : o.start ≤ o.stop) (hin : o.stop ≤ t.length) {start stop : Nat}
    (h : start ≤ stop) (hstop : stop ≤ t.length) :
    o.Parted (.delete start stop) (o.parts t)
      ((o.afterDelete start stop).parts (t.remove start stop)) :=
  Text.parts_remove hle hin h hstop

/-- A change that changes nothing leaves the parts as they are. -/
theorem parted_of_void {c : Change} (h : c.isVoid = true) (cut : Text × Text × Text) :
    o.Parted c cut cut := by
  cases c with
  | insert pos added =>
      obtain rfl : added = [] := List.isEmpty_iff.mp h
      simp only [Parted, Text.insert_nil, and_true, implies_true, true_and]
      exact apart_of_not_takesIn
  | delete start stop =>
      obtain rfl : start = stop := by simpa [Change.isVoid] using h
      simp only [Parted, Text.without_self]
  | property start stop key value => cases h

/-- What a change makes of an overlay: it covers what it should, and has all else as before. -/
structure Follows (o : Overlay) (t : Text) (c : Change) (o' : Overlay) (t' : Text) : Prop where
  parted : o.Parted c (o.parts t) (o'.parts t')
  front_eq : o'.frontAdvance = o.frontAdvance
  rear_eq : o'.rearAdvance = o.rearAdvance
  properties_eq : o'.properties = o.properties
  start_le : o'.start ≤ o'.stop
  stop_le : o'.stop ≤ t'.length

end Overlay

namespace Document

variable {d : Document} {id : OverlayId} {o : Overlay} {c : Change}

theorem overlay_apply (hd : d.Covered) (ho : d.overlays.get? id = some o)
    (hrange : c.rangeError d.length = none) :
    ∃ o', (d.apply c).overlays.get? id = some o' ∧ o.Follows d.text c o' (d.apply c).text := by
  obtain ⟨hle, hin⟩ := hd id o ho
  have hcovered := covered_enduring.apply d c hrange hd id
  cases c with
  | insert pos added =>
      have ho' : (d.insert pos added).overlays.get? id = some (o.afterInsert pos added.length) :=
        (Table.get?_map _ _ _).trans (by rw [ho]; rfl)
      obtain ⟨hle', hin'⟩ := hcovered _ ho'
      exact ⟨_, ho', Overlay.parted_insert hle hin pos added, rfl, rfl, rfl, hle', hin'⟩
  | delete start stop =>
      obtain ⟨h, hstop⟩ := Change.delete_le hrange
      have ho' : (d.delete start stop).overlays.get? id = some (o.afterDelete start stop) :=
        (Table.get?_map _ _ _).trans (by rw [ho]; rfl)
      obtain ⟨hle', hin'⟩ := hcovered _ ho'
      exact ⟨_, ho', Overlay.parted_delete hle hin h hstop, rfl, rfl, rfl, hle', hin'⟩
  | property start stop key value => exact ⟨o, ho, rfl, rfl, rfl, rfl, hle, hin⟩

theorem overlay_revised (hd : d.Covered) (ho : d.overlays.get? id = some o)
    (hrange : c.rangeError d.length = none) :
    ∃ o', (d.revised c).overlays.get? id = some o' ∧ o.Follows d.text c o' (d.revised c).text := by
  rw [revised]
  split
  · obtain ⟨hle, hin⟩ := hd id o ho
    exact ⟨o, ho, Overlay.parted_of_void ‹_› _, rfl, rfl, rfl, hle, hin⟩
  · exact overlay_apply hd ho hrange

end Document

/-! ## Runs -/

namespace Session

/-- At every moment of a run, within an undo too, when the text of a root is changed once: every
overlay of the root has the same flags and properties afterwards, lies in the text, and covers just
the characters that it has covered, without those that are deleted and with those inserted that it
takes in. -/
theorem overlays_keep_text (limits : Limits) (locks : Option LockProtocol) (steps : List Step) :
    ∀ s ∈ fresh limits locks :: runMoments steps (fresh limits locks),
      ∀ view root, s.editor.rootOf view = .ok root →
        ∀ c t, s.Revises view c t →
          ∃ d b, s.editor.documents.get? root = some d ∧ t.editor.documents.get? root = some b ∧
            ∀ id o, d.overlays.get? id = some o →
              ∃ o', b.overlays.get? id = some o' ∧ o.Follows d.text c o' b.text := by
  intro s hmoment view root hview c t hrevises
  have hsettled := moment_settled hmoment
  have hcovered := Document.covered_enduring.lasting.moments steps _ (fresh_atRest limits locks)
    (fresh_every limits locks) s hmoment
  obtain ⟨v, d, hs⟩ := hsettled.1.shows_of_rootOf hview
  obtain ⟨b, hamended⟩ := hrevises.amended hsettled (run_noted limits locks steps s hmoment) hs
  refine ⟨d, b, hs.document, hamended.document, fun id o ho => ?_⟩
  rw [hamended.overlays, hamended.text]
  exact Document.overlay_revised (hcovered root d hs.document) ho hamended.range

/-- A run that leaves three overlays around a position: one that ends there, an empty one, and one
that starts there. -/
def edgeOverlays : List Step :=
  [.op (.createRoot "v"), .op (.insert 0 "abcd".toList), .op (.makeOverlay 0 0 2 false true),
    .op (.makeOverlay 0 2 2 true false), .op (.makeOverlay 0 4 2 true true)]

theorem edgeOverlays_keep_text :
    (takeAll edgeOverlays (fresh .default none)).2.editor.overlayList 0 = .ok [0, 1, 2] ∧
      ∃ t, (takeAll edgeOverlays (fresh .default none)).2.Revises 0 (.insert 2 "xy".toList) t ∧
        t.editor.text 0 = .ok "abxycd".toList ∧
        ∃ d b, (takeAll edgeOverlays (fresh .default none)).2.editor.documents.get? 0 = some d ∧
          t.editor.documents.get? 0 = some b ∧
          ∀ id o, d.overlays.get? id = some o → ∃ o', b.overlays.get? id = some o' ∧
            o.Follows d.text (.insert 2 "xy".toList) o' b.text := by
  have hmoment := (walk_all edgeOverlays _ (fresh_atRest .default none)).end_mem
  have hrevises : (takeAll edgeOverlays (fresh .default none)).2.Revises 0
      (.insert 2 "xy".toList) ((Act.insertRaw 0 2 "xy".toList).run
        (takeAll edgeOverlays (fresh .default none)).2).2 :=
    .insertRaw (n := 2) (Prod.ext (by decide +kernel) rfl)
  exact ⟨by decide +kernel, _, hrevises, by decide +kernel,
    overlays_keep_text .default none edgeOverlays _ hmoment 0 0 (by decide +kernel) _ _ hrevises⟩

end Session

end Editing
