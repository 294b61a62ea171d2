import Editing.Proofs.History.Grouping

/-!
# A log and what was cut off from it

A log that is cut back loses its oldest records, and what it loses begins with a boundary. Whatever
is recorded afterwards goes on top, so the log as it was and the log that was cut back go on having
the same records, but for those lost. An undo that still finds a group in the log that was cut back
finds the same one in the other.
-/

namespace Editing

namespace Record

/-- A log is cut at a boundary, and not in front of its newest record. -/
theorem keptAt_cut {soft strong : Nat} {all rs : List Record} {size kept lastCut k : Nat}
    (hrest : all.drop kept = rs) (hkept : 0 < kept) (hpositive : 0 < lastCut)
    (hlast : (∃ older, all.drop lastCut = .boundary :: older) ∨
      lastCut = kept ∧ (rs = [] ∨ ∃ older, rs = .boundary :: older))
    (h : keptAt soft strong size kept lastCut rs = some k) :
    0 < k ∧ ∃ older, all.drop k = .boundary :: older := by
  induction rs generalizing size kept lastCut with
  | nil => cases h
  | cons r rs ih =>
      have hnext : all.drop (kept + 1) = rs := by rw [← List.tail_drop, hrest, List.tail_cons]
      rw [keptAt] at h
      split at h
      · rename_i hr
        obtain rfl : r = .boundary := by
          cases r with
          | boundary => rfl
          | _ => cases hr
        have hhere : ∃ older, all.drop kept = .boundary :: older := ⟨rs, hrest⟩
        split at h
        · cases h
          refine ⟨hpositive, ?_⟩
          rcases hlast with hlast | ⟨rfl, -⟩
          · exact hlast
          · exact hhere
        · split at h
          · cases h
            exact ⟨hkept, hhere⟩
          · exact ih hnext (Nat.succ_pos _) hkept (Or.inl hhere) h
      · rename_i hr
        refine ih hnext (Nat.succ_pos _) hpositive (Or.inl ?_) h
        rcases hlast with hlast | ⟨-, hnil | ⟨older, hcons⟩⟩
        · exact hlast
        · cases hnil
        · cases hcons
          exact absurd rfl hr

theorem drop_newestGroup (rs : List Record) :
    rs.drop (newestGroup rs).length = [] ∨
      ∃ older, rs.drop (newestGroup rs).length = .boundary :: older := by
  have hsplit : ∀ ss : List Record, ss.drop (ss.takeWhile fun r => !r.isBoundary).length =
      ss.dropWhile fun r => !r.isBoundary := by
    intro ss
    calc ss.drop (ss.takeWhile fun r => !r.isBoundary).length
        = ((ss.takeWhile fun r => !r.isBoundary) ++ ss.dropWhile fun r => !r.isBoundary).drop
            (ss.takeWhile fun r => !r.isBoundary).length := by rw [List.takeWhile_append_dropWhile]
      _ = ss.dropWhile fun r => !r.isBoundary := List.drop_left
  unfold newestGroup
  split
  · rename_i ss
    rw [List.length_cons, List.drop_succ_cons, hsplit]
    exact dropWhile_group ss
  · rw [hsplit]
    exact dropWhile_group rs

theorem newestGroup_pos {rs : List Record} (h : rs ≠ []) : 0 < (newestGroup rs).length := by
  cases rs with
  | nil => exact absurd rfl h
  | cons r rs => cases r <;> exact Nat.succ_pos _

theorem keptWithin_cut {soft strong : Nat} {rs : List Record} {k : Nat}
    (h : keptWithin soft strong rs = some k) :
    0 < k ∧ ∃ older, rs.drop k = .boundary :: older := by
  have hne : rs ≠ [] := by
    rintro rfl
    cases h
  have hpos := newestGroup_pos hne
  exact keptAt_cut rfl hpos hpos (Or.inr ⟨rfl, drop_newestGroup rs⟩) h

end Record

namespace UndoLog

variable {l m : UndoLog} {tail : List Record}

/-- The longer log has some more records behind those of the shorter one, and the first of these is
a boundary. -/
structure Extends (tail : List Record) (m l : UndoLog) : Prop where
  short : m.WellFormed
  long : l.WellFormed
  enabled : l.isEnabled = m.isEnabled
  suspended : l.suspended = m.suspended
  replaying : l.replaying = m.replaying
  records : l.records = m.records ++ tail
  apart : tail = [] ∨ m.records ≠ [] ∧ ∃ older, tail = .boundary :: older

/-- Both logs are to be undone from the same record. -/
structure Abreast (tail : List Record) (m l : UndoLog) : Prop where
  idle : l.cursor = .idle ↔ m.cursor = .idle
  remaining : l.remaining = m.remaining ++ tail

/-- Nothing remains to be undone, and the cursor stays where it is. -/
structure Spent (m : UndoLog) : Prop where
  moved : m.cursor ≠ .idle
  remaining : m.remaining = []

namespace Extends

theorem accepts (h : Extends tail m l) : l.acceptsRecords = m.acceptsRecords := by
  have henabled := h.enabled
  rw [isEnabled, isEnabled] at henabled
  rw [acceptsRecords, acceptsRecords, henabled, h.suspended]

/-- What is done on top of the records is done to both logs alike. -/
theorem grow (h : Extends tail m l) {m' l' : UndoLog} {f : List Record → List Record}
    (hf : ∀ r rs, ∃ q qs, ∀ older, f (r :: rs ++ older) = q :: qs ++ older)
    (hshort : m'.WellFormed) (hlong : l'.WellFormed) (henabled : l'.isEnabled = m'.isEnabled)
    (hsuspended : l'.suspended = m'.suspended) (hreplaying : l'.replaying = m'.replaying)
    (hm : m'.records = if m.acceptsRecords then f m.records else m.records)
    (hl : l'.records = if l.acceptsRecords then f l.records else l.records) :
    Extends tail m' l' := by
  have hrecords : l'.records = m'.records ++ tail ∧ (m.records ≠ [] → m'.records ≠ []) := by
    rw [hm, hl, h.accepts, h.records]
    split
    · rcases hrecords : m.records with _ | ⟨r, rs⟩
      · rcases h.apart with rfl | ⟨hne, -⟩
        · rw [List.append_nil, List.append_nil]
          exact ⟨rfl, fun hne => absurd rfl hne⟩
        · exact absurd hrecords hne
      · obtain ⟨q, qs, hq⟩ := hf r rs
        have halone := hq []
        rw [List.append_nil, List.append_nil] at halone
        rw [hq, halone]
        exact ⟨rfl, fun _ => List.cons_ne_nil q qs⟩
    · exact ⟨rfl, id⟩
  refine ⟨hshort, hlong, henabled, hsuspended, hreplaying, hrecords.1, ?_⟩
  rcases h.apart with htail | ⟨hne, htail⟩
  · exact Or.inl htail
  · exact Or.inr ⟨hrecords.2 hne, htail⟩

theorem record (h : Extends tail m l) (r : Record) : Extends tail (m.record r) (l.record r) := by
  refine h.grow (f := (r :: ·)) (fun q qs => ⟨r, q :: qs, fun _ => rfl⟩) (h.short.record r)
    (h.long.record r) ?_ ?_ ?_ (h.short.records_record r) (h.long.records_record r)
  · rw [isEnabled_record, isEnabled_record, h.enabled]
  · rw [suspended_record, suspended_record, h.suspended]
  · rw [replaying_record, replaying_record, h.replaying]

theorem recordInsert (h : Extends tail m l) (pos length : Nat) :
    Extends tail (m.recordInsert pos length) (l.recordInsert pos length) := by
  refine h.grow (f := Record.addInsert pos length) (fun r rs => ?_)
    (h.short.recordInsert pos length) (h.long.recordInsert pos length) ?_ ?_ ?_
    (h.short.records_recordInsert pos length) (h.long.records_recordInsert pos length)
  · cases r with
    | insert start n =>
        by_cases hp : start + n = pos
        · refine ⟨.insert start (n + length), rs, fun older => ?_⟩
          rw [List.cons_append, Record.addInsert, if_pos hp, List.cons_append]
        · refine ⟨.insert pos length, .insert start n :: rs, fun older => ?_⟩
          rw [List.cons_append, Record.addInsert, if_neg hp, List.cons_append, List.cons_append]
    | delete first text as => exact ⟨_, .delete first text as :: rs, fun _ => rfl⟩
    | property start stop key value => exact ⟨_, .property start stop key value :: rs, fun _ => rfl⟩
    | boundary => exact ⟨_, .boundary :: rs, fun _ => rfl⟩
  · rw [isEnabled_recordInsert, isEnabled_recordInsert, h.enabled]
  · rw [suspended_recordInsert, suspended_recordInsert, h.suspended]
  · rw [replaying_recordInsert, replaying_recordInsert, h.replaying]

theorem boundary (h : Extends tail m l) : Extends tail m.boundary l.boundary := by
  refine h.grow (f := Record.close) (fun r rs => ?_) h.short.boundary h.long.boundary ?_ ?_ ?_
    h.short.records_boundary h.long.records_boundary
  · by_cases hr : r.isBoundary = true
    · exact ⟨r, rs, fun older => by rw [List.cons_append, Record.close, if_pos hr]⟩
    · exact ⟨.boundary, r :: rs, fun older => by
        rw [List.cons_append, Record.close, if_neg hr, List.cons_append, List.cons_append]⟩
  · rw [isEnabled_boundary, isEnabled_boundary, h.enabled]
  · rw [suspended_boundary, suspended_boundary, h.suspended]
  · rw [replaying_boundary, replaying_boundary, h.replaying]

theorem nextGroup (h : Extends tail m l) : Extends tail m.nextGroup.2 l.nextGroup.2 where
  short := h.short.nextGroup
  long := h.long.nextGroup
  enabled := by
    rw [isEnabled, isEnabled, arena_nextGroup, arena_nextGroup]
    exact h.enabled
  suspended := by rw [suspended_nextGroup, suspended_nextGroup, h.suspended]
  replaying := by rw [replaying_nextGroup, replaying_nextGroup, h.replaying]
  records := by rw [records_nextGroup, records_nextGroup, h.records]
  apart := by
    rw [records_nextGroup]
    exact h.apart

theorem beginReplay (h : Extends tail m l) : Extends tail m.beginReplay l.beginReplay :=
  ⟨h.short.beginReplay, h.long.beginReplay, h.enabled, h.suspended, rfl, h.records, h.apart⟩

theorem endReplay (h : Extends tail m l) : Extends tail m.endReplay l.endReplay :=
  ⟨h.short.endReplay, h.long.endReplay, h.enabled, h.suspended, rfl, h.records, h.apart⟩

theorem abreast_boundary (h : Extends tail m l) (hb : Abreast tail m l) :
    Abreast tail m.boundary l.boundary := by
  constructor
  · rw [cursor_boundary, cursor_boundary, hb.idle]
  · by_cases hc : m.cursor = .idle
    · rw [remaining_idle ((cursor_boundary l).trans (hb.idle.mpr hc)),
        remaining_idle ((cursor_boundary m).trans hc), h.boundary.records]
    · rw [h.long.remaining_boundary_of_moved fun hidle => hc (hb.idle.mp hidle),
        h.short.remaining_boundary_of_moved hc, hb.remaining]

/-- The next group is the same in both logs, and what is lost lies behind it. -/
theorem next (h : Extends tail m l) (hb : Abreast tail m l) (hne : m.nextEntries ≠ []) :
    l.nextEntries.map Prod.snd = m.nextEntries.map Prod.snd ∧
      l.behindEntries.map Prod.snd = m.behindEntries.map Prod.snd ++ tail := by
  have htail : (tail.takeWhile fun r => !r.isBoundary) = [] ∧
      (tail.dropWhile fun r => !r.isBoundary) = tail := by
    rcases h.apart with rfl | ⟨-, older, rfl⟩
    · exact ⟨rfl, rfl⟩
    · exact ⟨rfl, rfl⟩
  rw [next_records, next_records, behind_records, behind_records, hb.remaining]
  have hahead : m.remaining.dropWhile Record.isBoundary ≠ [] := by
    intro hnil
    have hnext := m.next_records
    rw [hnil] at hnext
    exact hne (List.map_eq_nil_iff.mp hnext)
  rw [List.dropWhile_append, if_neg (by rwa [List.isEmpty_iff])]
  constructor
  · rw [List.takeWhile_append, htail.1, List.append_nil]
    split
    · rename_i hall
      exact ((List.takeWhile_prefix _).eq_of_length hall).symm
    · rfl
  · rw [List.dropWhile_append]
    split
    · rename_i hall
      rw [htail.2, List.isEmpty_iff.mp hall, List.nil_append]
    · rfl

end Extends

theorem Spent.nextGroup (h : m.Spent) (hm : m.WellFormed) (he : m.isEnabled = true) :
    m.boundary.nextGroup.1 = .error .noFurtherUndo := by
  have hremaining := hm.remaining_boundary_of_moved h.moved
  have hnext := m.boundary.next_records
  rw [hremaining, h.remaining] at hnext
  rw [nextGroup_eq (by rw [isEnabled_boundary, he]), List.map_eq_nil_iff.mp hnext]
  rfl

/-- Once its next group has been undone, a log that was cut back is abreast of the longer one, or it
is spent. -/
theorem abreast_or_spent {m' l' : UndoLog}
    (hbehind : l.behindEntries.map Prod.snd = m.behindEntries.map Prod.snd ++ tail)
    (hm : m'.cursor ≠ .idle) (hl : l'.cursor ≠ .idle)
    (hm' : m'.remaining = (m.behindEntries.drop 1).map Prod.snd)
    (hl' : l'.remaining = (l.behindEntries.drop 1).map Prod.snd) :
    Abreast tail m' l' ∨ m'.Spent := by
  rw [List.map_drop] at hm' hl'
  rw [hbehind] at hl'
  rcases hrecords : m.behindEntries.map Prod.snd with _ | ⟨x, rs⟩
  · exact Or.inr ⟨hm, by rw [hm', hrecords]; rfl⟩
  · refine Or.inl ⟨⟨fun hidle => absurd hidle hl, fun hidle => absurd hidle hm⟩, ?_⟩
    rw [hl', hm', hrecords]
    rfl

/-! ## Cutting back -/

theorem Extends.refl (h : l.WellFormed) : Extends [] l l :=
  ⟨h, h, rfl, rfl, rfl, (List.append_nil _).symm, Or.inl rfl⟩

theorem Abreast.refl (l : UndoLog) : Abreast [] l l := ⟨Iff.rfl, (List.append_nil _).symm⟩

theorem WellFormed.extends_of_chain (hl : l.WellFormed) (hm : m.WellFormed)
    {older : List (Nat × Record)} (hchain : l.chain = m.chain ++ older) (hne : m.chain ≠ [])
    (hcut : ∃ rs, older.map Prod.snd = .boundary :: rs) (henabled : l.isEnabled = m.isEnabled)
    (hsuspended : l.suspended = m.suspended) (hreplaying : l.replaying = m.replaying) :
    Extends (older.map Prod.snd) m l where
  short := hm
  long := hl
  enabled := henabled
  suspended := hsuspended
  replaying := hreplaying
  records := by rw [records_eq, records_eq, hchain, List.map_append]
  apart := by
    refine Or.inr ⟨?_, hcut⟩
    rw [records_eq]
    exact fun hnil => hne (List.map_eq_nil_iff.mp hnil)

/-- The cursor of a log that was cut back stays where it was, unless what it named is lost. -/
theorem WellFormed.abreast_of_chain (hl : l.WellFormed) (hm : m.WellFormed)
    {older : List (Nat × Record)} (hchain : l.chain = m.chain ++ older)
    (hcursor : m.cursor = l.cursor ∨ m.cursor = .exhausted) :
    Abreast (older.map Prod.snd) m l ∨ m.Spent := by
  have hspent : m.cursor = .exhausted → m.Spent := by
    intro hc
    refine ⟨by rw [hc]; exact Cursor.noConfusion, ?_⟩
    rw [remaining, ahead_exhausted hc]
    rfl
  rcases hcursor with hsame | hc
  · cases hc : m.cursor with
    | idle =>
        have hidle := hsame.symm.trans hc
        refine Or.inl ⟨by rw [hc, hidle], ?_⟩
        rw [remaining_idle hc, remaining_idle hidle, records_eq, records_eq, hchain,
          List.map_append]
    | resume i =>
        have hresume := hsame.symm.trans hc
        obtain ⟨e, he, rfl⟩ := List.mem_map.mp (hm.cursor i hc)
        obtain ⟨newer, rest, hsplit⟩ := List.append_of_mem he
        have hlonger : l.chain = newer ++ e :: (rest ++ older) := by
          rw [hchain, hsplit, List.append_assoc, List.cons_append]
        refine Or.inl ⟨by rw [hsame], ?_⟩
        rw [remaining, remaining, hl.ahead_resume hresume hlonger, hm.ahead_resume hc hsplit,
          ← List.map_append, List.cons_append]
    | exhausted => exact Or.inr (hspent hc)
  · exact Or.inr (hspent hc)

theorem cutBack_of_uncut {soft strong : Nat}
    (h : Record.keptWithin soft strong l.records = none) :
    l.cutBack soft strong = (.unchanged, l) := by
  cases harena : l.arena with
  | none => rw [cutBack, harena]
  | some a =>
      rw [UndoLog.records, harena] at h
      simp only [cutBack, harena, h]

/-- A log that is cut keeps so many of its newest entries, and a cursor that named one of the others
is at the end. -/
theorem WellFormed.cutBack_of_cut (h : l.WellFormed) {soft strong k : Nat}
    (hk : Record.keptWithin soft strong l.records = some k) :
    k < l.chain.length ∧
      (l.cutBack soft strong).1 = .severed k (l.chain.length - k) ∧
      (l.cutBack soft strong).2.chain = l.chain.take k ∧
      (l.cutBack soft strong).2.isEnabled = l.isEnabled ∧
      (l.cutBack soft strong).2.cursor =
        match l.cursor with
        | .resume i => if i ∈ (l.chain.drop k).map Prod.fst then .exhausted else .resume i
        | cursor => cursor := by
  obtain ⟨hpos, older, holder⟩ := Record.keptWithin_cut hk
  cases harena : l.arena with
  | none =>
      rw [UndoLog.records, harena] at holder
      cases List.drop_nil.symm.trans holder
  | some a =>
      have hrecords : l.records = a.records := by rw [UndoLog.records, harena]
      rw [hrecords] at hk holder
      rw [chain_of_arena harena]
      have hlength : k < a.chain.length := by
        have hcons := congrArg List.length holder
        rw [List.length_drop, List.length_cons, Arena.records, List.length_map] at hcons
        omega
      have hlt : k - 1 < a.chain.length := by omega
      cases hlast : a.chain[k - 1] with
      | mk i r =>
          have hdrop := List.drop_eq_getElem_cons hlt
          rw [Nat.sub_add_cancel hpos, hlast] at hdrop
          have hsplit : a.chain = a.chain.take (k - 1) ++ (i, r) :: a.chain.drop k := by
            rw [← hdrop, List.take_append_drop]
          obtain ⟨hreleased, hrest, hchain⟩ := (h.arena a harena).severAfter hsplit
          have hkept : (a.severAfter i).2.chain = a.chain.take k := by
            have htake := List.take_succ_eq_append_getElem hlt
            rw [Nat.sub_add_cancel hpos, hlast] at htake
            rw [hchain, htake]
          have hget : a.chain[k - 1]? = some (i, r) := by
            rw [List.getElem?_eq_getElem hlt, hlast]
          refine ⟨hlength, ?_, ?_, ?_, ?_⟩
          · simp only [cutBack, harena, hk, hget, hreleased]
            rw [hrest.used_eq, hkept, List.length_take, List.length_map, List.length_drop,
              Nat.min_eq_left (Nat.le_of_lt hlength)]
          · simp only [cutBack, harena, hk, hget]
            exact hkept
          · simp only [cutBack, harena, hk, hget, isEnabled]
            rfl
          · cases hcursor : l.cursor <;> simp only [cutBack, harena, hk, hget, hreleased, hcursor]

/-- A log that is cut back loses what lies behind a boundary, and the boundary. Its cursor stays, or
it named a record that is lost. -/
theorem WellFormed.extends_cutBack (h : l.WellFormed) (soft strong : Nat) :
    ∃ tail, Extends tail (l.cutBack soft strong).2 l ∧
      (Abreast tail (l.cutBack soft strong).2 l ∨ (l.cutBack soft strong).2.Spent) := by
  have hcut := CutTo.cutBack l soft strong
  cases hkept : Record.keptWithin soft strong l.records with
  | none =>
      rw [cutBack_of_uncut hkept]
      exact ⟨[], .refl h, Or.inl (.refl l)⟩
  | some k =>
      obtain ⟨hlt, -, hchain, henabled, hcursor⟩ := h.cutBack_of_cut hkept
      obtain ⟨hpos, older, holder⟩ := Record.keptWithin_cut hkept
      have hlonger : l.chain = (l.cutBack soft strong).2.chain ++ l.chain.drop k := by
        rw [hchain, List.take_append_drop]
      have hlost : (l.chain.drop k).map Prod.snd = .boundary :: older := by
        rw [List.map_drop, ← records_eq]
        exact holder
      refine ⟨(l.chain.drop k).map Prod.snd,
        h.extends_of_chain (hcut.wellFormed h) hlonger ?_ ⟨older, hlost⟩ henabled.symm
          hcut.suspended_eq.symm hcut.replaying_eq.symm,
        h.abreast_of_chain (hcut.wellFormed h) hlonger ?_⟩
      · rw [hchain]
        refine List.ne_nil_of_length_pos ?_
        rw [List.length_take]
        omega
      · rw [hcursor]
        cases l.cursor with
        | idle => exact Or.inl rfl
        | resume j =>
            simp only
            split
            · exact Or.inr rfl
            · exact Or.inl rfl
        | exhausted => exact Or.inl rfl

end UndoLog

end Editing
