import Editing.Machine.Document
import Editing.Proofs.Session.Reseating
import Editing.Proofs.Session.Standing

/-!
# Edits of documents fit into words

Where all positions lie within a text whose length fits into a word, signed or not, so do the sums
and differences of an edit: a position that moves behind an inserted text moves within the longer
one, and what is taken from a position is no more than what is deleted before it. So edits in words
of the machine have the same results as those on numbers of any size.
-/

namespace Editing

theorem maxInteger_le_maxPosition : maxInteger ≤ maxPosition := by decide

/-! ## Tables -/

namespace Table

variable {α β : Type} {f : α → Option β} {g : α → β}

theorem replaceEntries_eq {es : List (Nat × α)} (h : ∀ e ∈ es, f e.2 = some (g e.2)) :
    replaceEntries f es = some (es.map fun e => (e.1, g e.2)) := by
  induction es with
  | nil => rfl
  | cons e es ih =>
      obtain ⟨he, hes⟩ := List.forall_mem_cons.mp h
      rw [replaceEntries, he, ih hes]
      rfl

/-- When every value can be replaced, so can all. -/
theorem replace?_eq {t : Table α} (h : ∀ k a, t.get? k = some a → f a = some (g a)) :
    t.replace? f = some (t.map g) := by
  have hentries : replaceEntries f t.entries = some (t.entries.map fun e => (e.1, g e.2)) :=
    replaceEntries_eq fun e he => h e.1 e.2 (mem_entries.mp he)
  rw [replace?]
  split
  · rename_i hnone
    rw [hentries] at hnone
    cases hnone
  · rename_i es hes
    rw [hentries] at hes
    cases hes
    rfl

end Table

/-! ## Positions, markers and overlays -/

namespace Position

theorem afterInsert?_eq {p length : Nat} (h : p + length ≤ maxPosition) (advances : Bool)
    (pos : Nat) : afterInsert? advances pos length p = some (afterInsert advances pos length p) := by
  rw [afterInsert?, afterInsert, Machine.add_eq h]
  split <;> rfl

theorem afterDelete?_eq {start stop : Nat} (h : start ≤ stop) (p : Nat) :
    afterDelete? start stop (stop - start) p = some (afterDelete start stop p) := by
  rw [afterDelete?, afterDelete]
  split
  · rw [Machine.sub_eq (by omega)]
  · rfl

end Position

namespace Marker

theorem displacement?_eq {m : Marker} {start stop : Nat} (hs : start ≤ stop)
    (hstop : stop ≤ maxInteger) (hm : m.position ≤ maxInteger) :
    m.displacement? start stop = some (m.displacement start stop) := by
  have hanchor : (if m.advances then stop else start) ≤ maxInteger := by
    split
    · exact hstop
    · exact Nat.le_trans hs hstop
  rw [displacement?, displacement, Machine.signed_eq hanchor, Machine.signed_eq hm]
  simp only [Option.bind_eq_bind, Option.bind_some]
  rw [Machine.signedSub_eq (by omega) (by omega)]
  split <;> rfl

end Marker

namespace Markers

variable {ms : Markers}

theorem afterInsert?_eq {length : Nat}
    (h : ∀ id m, ms.get? id = some m → m.position + length ≤ maxPosition) (pos : Nat) :
    Markers.afterInsert? ms pos length = some (Markers.afterInsert ms pos length) :=
  Table.replace?_eq fun id m hm => by
    rw [Marker.afterInsert?, Position.afterInsert?_eq (h id m hm)]
    rfl

theorem afterDelete?_eq {start stop : Nat} (h : start ≤ stop) (ms : Markers) :
    Markers.afterDelete? ms start stop = some (Markers.afterDelete ms start stop) := by
  rw [Markers.afterDelete?, Machine.sub_eq h]
  exact Table.replace?_eq fun id m hm => by
    rw [Marker.afterDelete?, Position.afterDelete?_eq h]
    rfl

theorem adjustmentsOf?_eq {start stop : Nat} (hs : start ≤ stop) (hstop : stop ≤ maxInteger)
    {es : List (MarkerId × Marker)} (h : ∀ e ∈ es, e.2.position ≤ maxInteger) :
    adjustmentsOf? start stop es = some (es.filterMap fun (id, m) =>
      if m.kind = .user ∧ start ≤ m.position ∧ m.position ≤ stop ∧ m.displacement start stop ≠ 0
      then some ⟨id, m.displacement start stop⟩ else none) := by
  induction es with
  | nil => rfl
  | cons e es ih =>
      obtain ⟨id, m⟩ := e
      obtain ⟨hm, hes⟩ := List.forall_mem_cons.mp h
      rw [adjustmentsOf?, List.filterMap_cons, ih hes, Marker.displacement?_eq hs hstop hm]
      simp only [Option.bind_eq_bind, Option.bind_some]
      by_cases hin : m.kind = .user ∧ start ≤ m.position ∧ m.position ≤ stop
      · by_cases hne : m.displacement start stop ≠ 0
        · simp [hin, hne]
        · simp [hne]
      · rw [if_neg hin, if_neg fun hall => hin ⟨hall.1, hall.2.1, hall.2.2.1⟩]

theorem adjustments?_eq {start stop : Nat} (hs : start ≤ stop) (hstop : stop ≤ maxInteger)
    (h : ∀ id m, ms.get? id = some m → m.position ≤ maxInteger) :
    Markers.adjustments? ms start stop = some (Markers.adjustments ms start stop) :=
  adjustmentsOf?_eq hs hstop fun e he => h e.1 e.2 (Table.mem_entries.mp he)

end Markers

namespace Overlays

variable {os : Overlays}

theorem afterInsert?_eq {length : Nat}
    (h : ∀ id o, os.get? id = some o →
      o.start + length ≤ maxPosition ∧ o.stop + length ≤ maxPosition) (pos : Nat) :
    Overlays.afterInsert? os pos length = some (Overlays.afterInsert os pos length) :=
  Table.replace?_eq fun id o ho => by
    obtain ⟨hstart, hstop⟩ := h id o ho
    rw [Overlay.afterInsert?, Position.afterInsert?_eq hstart, Position.afterInsert?_eq hstop]
    rfl

theorem afterDelete?_eq {start stop : Nat} (h : start ≤ stop) (os : Overlays) :
    Overlays.afterDelete? os start stop = some (Overlays.afterDelete os start stop) := by
  rw [Overlays.afterDelete?, Machine.sub_eq h]
  exact Table.replace?_eq fun id o ho => by
    rw [Overlay.afterDelete?, Position.afterDelete?_eq h, Position.afterDelete?_eq h]
    rfl

end Overlays

/-! ## Logs -/

/-- An insertion on record ends at a position that a word with a sign holds. -/
def Record.Fits : Record → Prop
  | insert pos n => pos + n ≤ maxInteger
  | _ => True

namespace UndoLog

variable {l : UndoLog}

theorem recordInsert?_of_newest (hs : l.suspended = false) {i : Nat} {r : Record} {a : Arena}
    (hpop : l.arena.bind Arena.pop = some (i, r, a)) {pos length : Nat} (hr : r.Fits)
    (hlength : pos + length ≤ maxPosition) :
    l.recordInsert? pos length = some (l.recordInsert pos length) := by
  rw [recordInsert?, recordInsert, hs, if_neg Bool.false_ne_true, if_neg Bool.false_ne_true, hpop]
  cases r with
  | insert start n =>
      have hend : start + n ≤ maxPosition := Nat.le_trans hr maxInteger_le_maxPosition
      simp only [Machine.add_eq hend, Option.bind_eq_bind, Option.bind_some]
      split
      · rename_i heq
        rw [Machine.add_eq (by omega)]
        rfl
      · rfl
  | delete _ _ _ => rfl
  | property _ _ _ _ => rfl
  | boundary => rfl

/-- What is taken off a log has been its newest record. -/
theorem WellFormed.mem_of_pop (h : l.WellFormed) {i : Nat} {r : Record} {a : Arena}
    (hpop : l.arena.bind Arena.pop = some (i, r, a)) : r ∈ l.records := by
  obtain ⟨b, hb, hpop⟩ := Option.bind_eq_some_iff.mp hpop
  have hwf := h.arena b hb
  rw [records_eq, chain_of_arena hb]
  cases hchain : b.chain with
  | nil =>
      rw [Arena.pop_of_chain_nil hwf hchain] at hpop
      cases hpop
  | cons e es =>
      obtain ⟨c, hnewest, -⟩ := hwf.pop hchain
      rw [hnewest] at hpop
      cases hpop
      exact List.mem_cons_self

/-- Insertions are merged in words as they are otherwise, when no record ends beyond them. -/
theorem WellFormed.recordInsert?_eq (h : l.WellFormed) (hfits : ∀ r ∈ l.records, r.Fits)
    {pos length : Nat} (hlength : pos + length ≤ maxPosition) :
    l.recordInsert? pos length = some (l.recordInsert pos length) := by
  cases hs : l.suspended with
  | true => rw [recordInsert?, UndoLog.recordInsert, hs, if_pos rfl, if_pos rfl]
  | false =>
      cases hpop : l.arena.bind Arena.pop with
      | none =>
          rw [recordInsert?, UndoLog.recordInsert, hs, if_neg Bool.false_ne_true,
            if_neg Bool.false_ne_true, hpop]
      | some popped =>
          obtain ⟨i, r, a⟩ := popped
          exact recordInsert?_of_newest hs hpop (hfits r (h.mem_of_pop hpop)) hlength

end UndoLog

/-! ## Documents -/

namespace Document

/-- The text has no more characters than so many. -/
def Within (limit : Nat) (d : Document) : Prop := d.length ≤ limit

/-- The numbers that a document holds fit into words, those with a sign too. -/
structure Fits (d : Document) : Prop where
  short : d.Within maxInteger
  placed : d.Placed
  covered : d.Covered
  recorded : ∀ r ∈ d.log.records, r.Fits

namespace Fits

variable {d : Document}

theorem insert?_eq (h : d.Fits) (hl : d.log.WellFormed) {pos : Nat} (hpos : pos ≤ d.length)
    {s : Text} (hs : d.length + s.length ≤ maxInteger) :
    d.insert? pos s = some (d.insert pos s) := by
  have hmax := maxInteger_le_maxPosition
  have hlonger : (d.text.insert pos s).length = d.length + s.length := Text.length_insert _ _ _
  have hmarkers : Markers.afterInsert? d.markers pos s.length =
      some (Markers.afterInsert d.markers pos s.length) := by
    refine Markers.afterInsert?_eq (fun id m hm => ?_) pos
    have hm := h.placed id m hm
    omega
  have hoverlays : Overlays.afterInsert? d.overlays pos s.length =
      some (Overlays.afterInsert d.overlays pos s.length) := by
    refine Overlays.afterInsert?_eq (fun id o ho => ?_) pos
    obtain ⟨hle, hstop⟩ := h.covered id o ho
    omega
  have hlog : d.log.recordInsert? pos s.length = some (d.log.recordInsert pos s.length) :=
    hl.recordInsert?_eq h.recorded (by omega)
  rw [insert?, hlonger, Machine.sub_eq (Nat.le_add_right _ _), Nat.add_sub_cancel_left]
  simp only [Option.bind_eq_bind, Option.bind_some, hmarkers, hoverlays, hlog]
  rfl

theorem delete?_eq (h : d.Fits) {start stop : Nat} (hs : start ≤ stop) (hstop : stop ≤ d.length) :
    d.delete? start stop = some (d.delete start stop) := by
  have hmarkers : ∀ id m, d.markers.get? id = some m → m.position ≤ maxInteger := fun id m hm =>
    Nat.le_trans (h.placed id m hm) h.short
  have hadjustments := Markers.adjustments?_eq hs (Nat.le_trans hstop h.short) hmarkers
  rw [delete?, delete, deletionRecord]
  cases haccepts : d.log.acceptsRecords with
  | true =>
      simp only [if_true, hadjustments, Markers.afterDelete?_eq hs, Overlays.afterDelete?_eq hs,
        Option.bind_eq_bind, Option.bind_some]
      rfl
  | false =>
      simp only [Bool.false_eq_true, if_false, Markers.afterDelete?_eq hs,
        Overlays.afterDelete?_eq hs, Option.bind_eq_bind, Option.bind_some]
      rfl

/-- A change in words has the result that it has otherwise, when the text does not grow too long. -/
theorem changed?_eq (h : d.Fits) (hl : d.log.WellFormed) {c : Change}
    (hrange : c.rangeError d.length = none) (hshort : (d.apply c).Within maxInteger) :
    d.changed? c = some (d.apply c) := by
  cases c with
  | insert pos s =>
      have hlonger : (d.text.insert pos s).length = d.length + s.length := Text.length_insert _ _ _
      exact h.insert?_eq hl (Change.insert_le hrange) (hlonger ▸ hshort)
  | delete start stop =>
      obtain ⟨hs, hstop⟩ := Change.delete_le hrange
      exact h.delete?_eq hs hstop
  | property start stop key value => rfl

end Fits

end Document

/-- Before the first position there is none, so none is taken from it. -/
theorem Text.isLineStart?_eq (t : Text) (pos : Nat) :
    t.isLineStart? pos = some (t.isLineStart pos) := by
  rw [isLineStart?, isLineStart]
  generalize min pos t.length = pos
  by_cases hpos : pos = 0
  · simp [hpos]
  · have hone : 1 ≤ pos := Nat.one_le_iff_ne_zero.mpr hpos
    simp [hpos, Machine.sub_eq hone]

end Editing
