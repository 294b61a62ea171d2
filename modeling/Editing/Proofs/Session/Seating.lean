import Editing.Proofs.Session.Replaying

/-!
# Where the user's markers sit

A change moves every marker of the user by a rule of its own, and so does a record that is taken
back. A record recedes what its change has advanced: an insertion by itself, a deletion with the
help of the adjustments that were noted for the markers it collapsed.
-/

namespace Editing

namespace Position

/-- Taking back an insertion puts back every position. -/
theorem afterDelete_afterInsert (advances : Bool) (pos n p : Nat) :
    afterDelete pos (pos + n) (afterInsert advances pos n p) = p := by
  unfold afterDelete afterInsert
  cases advances
  · simp only [Bool.false_eq_true, and_false, or_false]
    repeat' split
    all_goals omega
  · simp only [and_true]
    repeat' split
    all_goals omega

/-- Taking back two insertions merged into one takes back the second first. -/
theorem afterDelete_merged (advances : Bool) (start n m p : Nat) :
    afterDelete start (start + (n + m)) (afterInsert advances (start + n) m p) =
      afterDelete start (start + n) p := by
  unfold afterDelete afterInsert
  cases advances
  · simp only [Bool.false_eq_true, and_false, or_false]
    repeat' split
    all_goals omega
  · simp only [and_true]
    repeat' split
    all_goals omega

end Position

namespace Marker

/-- The marker once an adjustment has been taken back in a text of the given length. -/
def readjusted (length : Nat) (m : Marker) (a : MarkerAdjustment) : Marker :=
  { m with position := (max 0 (min (length : Int) (m.position - a.amount))).toNat }

theorem afterInsert_zero (m : Marker) (pos : Nat) : m.afterInsert pos 0 = m := by
  rw [afterInsert, Position.afterInsert, Nat.add_zero, ite_self]

theorem afterDelete_self (m : Marker) (pos : Nat) : m.afterDelete pos pos = m := by
  have hpos : Position.afterDelete pos pos m.position = m.position := by
    rw [Position.afterDelete, Nat.sub_self, Nat.sub_zero]
    split
    · rfl
    · rfl
  rw [afterDelete, hpos]

end Marker

/-- Where a marker goes in a change. -/
def Change.advance : Change → Marker → Marker
  | insert pos text, m => m.afterInsert pos text.length
  | delete start stop, m => m.afterDelete start stop
  | property .., m => m

namespace Record

/-- Where a marker goes when a record is taken back in a text of the given length. Of the noted
adjustments only those of the marker itself count, and only while it lies where the deletion was. -/
def recede (id : MarkerId) (length : Nat) : Record → Marker → Marker
  | insert pos n, m => m.afterDelete pos (pos + n)
  | delete pos text as, m =>
      if m.position = pos then
        (as.filter fun a => a.marker == id).foldl (Marker.readjusted (length + text.length))
          (m.afterInsert pos text.length)
      else m.afterInsert pos text.length
  | property .., m => m
  | boundary, m => m

/-- Where a marker goes when several records are taken back, the newest first. -/
def recedeAll (id : MarkerId) : List Record → Text → Marker → Marker
  | [], _, m => m
  | r :: rs, text, m => recedeAll id rs (r.revert text) (r.recede id text.length m)

end Record

namespace Document

variable {d c : Document} {id point : MarkerId}

/-- The marker of the user with a number, if there is one in the document. -/
def seat (d : Document) (id : MarkerId) : Option Marker :=
  (d.markers.get? id).filter fun m => m.kind == .user

theorem seat_eq_some {m : Marker} :
    d.seat id = some m ↔ d.markers.get? id = some m ∧ m.kind = .user := by
  rw [seat, Option.filter_eq_some_iff, beq_iff_eq]

/-- Functions that keep the kind of markers may be applied before or after those of the user are
picked. -/
theorem filter_map_kind (f : Marker → Marker) (hf : ∀ m, (f m).kind = m.kind) (o : Option Marker) :
    (o.map f).filter (fun m => m.kind == .user) = (o.filter fun m => m.kind == .user).map f := by
  cases o with
  | none => rfl
  | some m =>
      rw [Option.map_some, Option.filter_some, Option.filter_some, hf]
      split
      · rfl
      · rfl

theorem seat_apply (d : Document) (c : Change) (id : MarkerId) :
    (d.apply c).seat id = (d.seat id).map c.advance := by
  cases c with
  | insert pos text =>
      change ((Markers.afterInsert d.markers pos text.length).get? id).filter _ = _
      rw [Markers.afterInsert, Table.get?_map,
        filter_map_kind (·.afterInsert pos text.length) fun _ => rfl]
      rfl
  | delete start stop =>
      change ((Markers.afterDelete d.markers start stop).get? id).filter _ = _
      rw [Markers.afterDelete, Table.get?_map,
        filter_map_kind (·.afterDelete start stop) fun _ => rfl]
      rfl
  | property start stop key value =>
      change d.seat id = (d.seat id).map fun m => m
      rw [Option.map_id']

theorem seat_congr (h : c.markers = d.markers) (id : MarkerId) : c.seat id = d.seat id := by
  rw [seat, h, seat]

theorem seat_setPosition (d : Document) (marker id : MarkerId) (pos : Nat) :
    (d.setPosition marker pos).seat id =
      if id = marker then (d.seat id).map fun m => { m with position := pos } else d.seat id := by
  have hget : (d.setPosition marker pos).markers.get? id =
      if id = marker then (d.markers.get? id).map fun m => { m with position := pos }
      else d.markers.get? id := Table.get?_modify _ _ _ _
  rw [seat, hget]
  split
  · exact filter_map_kind (fun m => { m with position := pos }) (fun _ => rfl) _
  · rfl

theorem seat_setPosition_of_none {marker : MarkerId} (h : d.seat marker = none) (pos : Nat)
    (id : MarkerId) : (d.setPosition marker pos).seat id = d.seat id := by
  rw [seat_setPosition]
  split
  · rename_i heq
    rw [heq, h]
    rfl
  · rfl

theorem seat_readjust (d : Document) (a : MarkerAdjustment) (id : MarkerId) :
    (d.readjust a).seat id =
      if a.marker = id then (d.seat id).map fun m => m.readjusted d.length a else d.seat id := by
  rw [readjust]
  cases hpos : Markers.position? d.markers a.marker with
  | none =>
      have hnone : d.seat a.marker = none := by
        rw [seat, Option.map_eq_none_iff.mp hpos]
        rfl
      change d.seat id = _
      split
      · rename_i heq
        rw [← heq, hnone]
        rfl
      · rfl
  | some pos =>
      simp only
      rw [seat_setPosition]
      by_cases heq : a.marker = id
      · rw [if_pos heq.symm, if_pos heq]
        cases hm : d.seat id with
        | none => rfl
        | some m =>
            have hposition : m.position = pos := by
              rw [Markers.position?, heq, (seat_eq_some.mp hm).1] at hpos
              exact Option.some.inj hpos
            rw [Option.map_some, Option.map_some, Marker.readjusted, hposition]
      · rw [if_neg (Ne.symm heq), if_neg heq]

theorem length_readjust (d : Document) (a : MarkerAdjustment) :
    (d.readjust a).length = d.length := by
  obtain ⟨pos, heq | heq⟩ := d.readjust_eq a
  · rw [heq]
  · rw [heq]
    rfl

theorem seat_readjustAll (d : Document) (as : List MarkerAdjustment) (id : MarkerId) :
    (as.foldl readjust d).seat id =
      (d.seat id).map fun m =>
        (as.filter fun a => a.marker == id).foldl (Marker.readjusted d.length) m := by
  induction as generalizing d with
  | nil =>
      change d.seat id = (d.seat id).map fun m => m
      rw [Option.map_id']
  | cons a as ih =>
      rw [List.foldl_cons, ih, length_readjust, seat_readjust]
      by_cases heq : a.marker = id
      · have hkept :=
            List.filter_cons_of_pos (p := fun a : MarkerAdjustment => a.marker == id) (l := as)
          (beq_iff_eq.mpr heq)
        rw [if_pos heq, hkept, Option.map_map]
        rfl
      · have hdropped :=
            List.filter_cons_of_neg (p := fun a : MarkerAdjustment => a.marker == id) (l := as)
          fun h => heq (beq_iff_eq.mp h)
        rw [if_neg heq, hdropped]

theorem filter_readjustable {m : Marker} (hm : d.seat id = some m) (pos : Nat)
    (as : List MarkerAdjustment) :
    ((d.readjustable pos as).filter fun a => a.marker == id) =
      if m.position = pos then as.filter fun a => a.marker == id else [] := by
  have hposition : Markers.position? d.markers id = some m.position := by
    rw [Markers.position?, (seat_eq_some.mp hm).1]
    rfl
  rw [readjustable, List.filter_filter]
  split
  · rename_i hpos
    apply List.filter_congr
    intro a _
    by_cases heq : a.marker = id
    · rw [heq, hposition, hpos, beq_self_eq_true, beq_self_eq_true, Bool.and_true]
    · rw [beq_eq_false_iff_ne.mpr heq, Bool.false_and]
  · rename_i hpos
    apply List.filter_eq_nil_iff.mpr
    intro a _ h
    obtain ⟨hid, hat⟩ := Bool.and_eq_true_iff.mp h
    rw [beq_iff_eq.mp hid, hposition] at hat
    exact hpos (Option.some.inj (beq_iff_eq.mp hat))

theorem seat_revised (d : Document) (c : Change) (id : MarkerId) :
    (d.revised c).seat id = (d.seat id).map c.advance := by
  rw [revised]
  split
  · rename_i hvoid
    have hstays : ∀ m, c.advance m = m := by
      intro m
      cases c with
      | insert pos text =>
          have htext : text = [] := List.isEmpty_iff.mp hvoid
          rw [htext]
          exact m.afterInsert_zero pos
      | delete start stop =>
          have hstop : start = stop := by simpa [Change.isVoid] using hvoid
          rw [hstop]
          exact m.afterDelete_self stop
      | property start stop key value => rfl
    rw [show c.advance = fun m => m from funext hstays, Option.map_id']
  · exact seat_apply { d with locked := d.locked || d.wanted.isSome } c id

/-- Taking back a record moves every marker of the user as the record tells. -/
theorem seat_replayed (hp : d.seat point = none) (r : Record) (id : MarkerId) :
    (d.replayed point r).seat id = (d.seat id).map (r.recede id d.length) := by
  cases r with
  | insert pos n =>
      have hnone : (d.revised (.delete pos (pos + n))).seat point = none := by
        rw [seat_revised, hp]
        rfl
      rw [replayed, seat_setPosition_of_none hnone, seat_revised]
      rfl
  | delete pos text as =>
      have hlength : (d.revised (.insert pos text)).length = d.length + text.length := by
        have htext := text_replayed d point (.delete pos text as)
        rw [replayed] at htext
        change (d.revised (.insert pos text)).text.length = _
        rw [← text_readjustAll _ (d.readjustable pos as)]
        exact (congrArg List.length htext).trans (Text.length_insert _ _ _)
      -- Point is no marker of the user, so moving it there at the end changes no seat.
      have hnone :
          ((d.readjustable pos as).foldl readjust (d.revised (.insert pos text))).seat point =
          none := by
        rw [seat_readjustAll, seat_revised, hp]
        rfl
      rw [replayed, seat_setPosition_of_none hnone, seat_readjustAll, seat_revised, hlength,
        Option.map_map]
      cases hm : d.seat id with
      | none => rfl
      | some m =>
          rw [Option.map_some, Option.map_some, Function.comp_apply, filter_readjustable hm,
            Record.recede]
          split
          · rfl
          · rfl
  | property start stop key value =>
      change d.seat id = (d.seat id).map fun m => m
      rw [Option.map_id']
  | boundary =>
      change d.seat id = (d.seat id).map fun m => m
      rw [Option.map_id']

theorem seat_replayedAll (hp : d.seat point = none) (rs : List Record) (id : MarkerId) :
    (d.replayedAll point rs).seat id = (d.seat id).map (Record.recedeAll id rs d.text) := by
  induction rs generalizing d with
  | nil =>
      change d.seat id = (d.seat id).map fun m => m
      rw [Option.map_id']
  | cons r rs ih =>
      have hnone : (d.replayed point r).seat point = none := by
        rw [seat_replayed hp, hp]
        rfl
      rw [replayedAll, ih hnone, seat_replayed hp, text_replayed, Option.map_map]
      rfl

end Document

/-! ## What a change moves, its record puts back -/

theorem Table.filterMap_entries {α β : Type} {t : Table α} {id : Nat} {m : α}
    (hm : t.get? id = some m)
    (g : Nat × α → Option β) :
    (t.entries.filterMap fun e => if e.1 = id then g e else none) = (g (id, m)).toList := by
  obtain ⟨es, hes⟩ := t
  change Table.find id es = some m at hm
  change (es.filterMap fun e => if e.1 = id then g e else none) = (g (id, m)).toList
  induction es with
  | nil => cases hm
  | cons e es ih =>
      obtain ⟨hlt, hes⟩ := List.pairwise_cons.mp hes
      rw [Table.find] at hm
      by_cases he : e.1 = id
      · rw [if_pos he.symm] at hm
        have hnone : (es.filterMap fun e => if e.1 = id then g e else none) = [] := by
          refine List.filterMap_eq_nil_iff.mpr fun x hx => if_neg fun hid => ?_
          exact Nat.lt_irrefl _ ((he.trans hid.symm) ▸ hlt x hx)
        have heq : e = (id, m) := Prod.ext he (Option.some.inj hm)
        rw [List.filterMap_cons, if_pos he, hnone, heq]
        cases g (id, m) <;> rfl
      · rw [if_neg (Ne.symm he)] at hm
        rw [List.filterMap_cons, if_neg he]
        exact ih hes hm

namespace Markers

/-- What is noted of one marker in a deletion. -/
def noted (start stop : Nat) (e : Nat × Marker) : Option MarkerAdjustment :=
  if e.2.kind = .user ∧ start ≤ e.2.position ∧ e.2.position ≤ stop ∧
      e.2.displacement start stop ≠ 0 then
    some ⟨e.1, e.2.displacement start stop⟩
  else none

theorem adjustments_eq (ms : Markers) (start stop : Nat) :
    adjustments ms start stop = ms.entries.filterMap (noted start stop) := rfl

theorem filter_noted (start stop : Nat) (id : MarkerId) (e : Nat × Marker) :
    ((noted start stop e).filter fun a => a.marker == id) =
      if e.1 = id then noted start stop e else none := by
  rw [noted]
  split
  · by_cases he : e.1 = id
    · rw [if_pos he]
      exact if_pos (beq_iff_eq.mpr he)
    · rw [if_neg he]
      exact if_neg fun h => he (beq_iff_eq.mp h)
  · rw [ite_self]
    rfl

/-- Of the adjustments noted in a deletion, at most one is of a given marker. -/
theorem filter_adjustments {ms : Markers} {id : MarkerId} {m : Marker} (hm : ms.get? id = some m)
    (hkind : m.kind = .user) (start stop : Nat) :
    ((adjustments ms start stop).filter fun a => a.marker == id) =
      if start ≤ m.position ∧ m.position ≤ stop ∧ m.displacement start stop ≠ 0 then
        [⟨id, m.displacement start stop⟩]
      else [] := by
  rw [adjustments_eq, List.filter_filterMap, funext (filter_noted start stop id),
    Table.filterMap_entries hm, noted]
  simp only [hkind, true_and]
  split
  · rfl
  · rfl

end Markers

namespace Document

variable {d : Document} {id : MarkerId} {m : Marker}

/-- An insertion that is taken back leaves every marker where it was. -/
theorem recede_insert (id : MarkerId) (length pos n : Nat) (m : Marker) :
    (Record.insert pos n).recede id length (m.afterInsert pos n) = m := by
  have hpos := Position.afterDelete_afterInsert m.advances pos n m.position
  rw [Record.recede, Marker.afterDelete, Marker.afterInsert, hpos]

/-- So does an insertion merged with the one before it. -/
theorem recede_merged (id : MarkerId) (length before start n k : Nat) (m : Marker) :
    (Record.insert start (n + k)).recede id length (m.afterInsert (start + n) k) =
      (Record.insert start n).recede id before m := by
  have hpos := Position.afterDelete_merged m.advances start n k m.position
  rw [Record.recede, Record.recede, Marker.afterDelete, Marker.afterInsert, Marker.afterDelete,
    hpos]

/-- A deletion that is taken back leaves every marker where it was. Those that it collapsed come
apart again by their adjustments. -/
theorem recede_delete (hm : d.seat id = some m) (ha : d.log.acceptsRecords = true)
    {start stop : Nat}
    (hle : start ≤ stop) (hstop : stop ≤ d.length) :
    (d.deletionRecord start stop).recede id (d.length - (stop - start)) (m.afterDelete start stop) =
      m := by
  obtain ⟨hget, hkind⟩ := seat_eq_some.mp hm
  have hslice : (d.text.slice start stop).length = stop - start := by
    rw [Text.length_slice, Nat.min_eq_left (show stop ≤ d.text.length from hstop)]
  rw [deletionRecord, ha, if_pos rfl, Record.recede, hslice, Markers.filter_adjustments hget hkind]
  obtain ⟨p, advances, kind⟩ := m
  -- Only markers in the deleted range, its ends included, come to lie where the text returns.
  by_cases hin : start ≤ p ∧ p ≤ stop
  · have hcollapsed : Position.afterDelete start stop p = start := by
      rw [Position.afterDelete, if_neg (by omega)]
      split <;> omega
    simp only [Marker.afterDelete, Marker.afterInsert, Marker.displacement, hcollapsed, hin,
      true_and]
    rw [if_pos trivial]
    -- A marker that advances goes to the end of the text that returns, any other stays at its
    -- start; either way the noted displacement is what is missing.
    cases advances
    · simp only [Position.afterInsert, Bool.false_eq_true, Nat.lt_irrefl, and_false, or_false,
        if_false]
      split
      · simp only [List.foldl_cons, List.foldl_nil, Marker.readjusted]
        congr 1
        omega
      · simp only [List.foldl_nil]
        congr 1
        omega
    · simp only [Position.afterInsert, and_self, or_true, if_true]
      split
      · simp only [List.foldl_cons, List.foldl_nil, Marker.readjusted]
        congr 1
        omega
      · simp only [List.foldl_nil]
        congr 1
        omega
  · have hapart : Position.afterDelete start stop p ≠ start ∧
        Position.afterInsert advances start (stop - start) (Position.afterDelete start stop p) =
        p := by
      unfold Position.afterInsert Position.afterDelete
      split
      · exact ⟨by omega, by rw [if_pos (by omega)]; omega⟩
      · rw [if_neg (by omega)]
        exact ⟨by omega, if_neg (by omega)⟩
    simp only [Marker.afterDelete, Marker.afterInsert, hapart.1, if_false, hapart.2]

end Document

end Editing
