import Editing.Proofs.History.Cutting

/-!
# Logs that grow during an undo

While a group is taken back, the inverse changes are recorded on top of the log that is walked. What
was there when the undo began stays as it was, since a group that is closed takes in no insertion,
and the cursor stays where it is.
-/

namespace Editing.UndoLog

variable {l : UndoLog} {base : List (Nat × Record)} {cursor : Cursor}

/-- Records have been put on top of a closed chain, and the cursor is behind its newest record. -/
structure Grown (base : List (Nat × Record)) (cursor : Cursor) (l : UndoLog) : Prop where
  chain_eq : ∃ news, l.chain = news ++ base
  cursor_eq : l.cursor = cursor
  closed : ∀ i pos n es, base ≠ (i, .insert pos n) :: es
  behind : ∀ i, cursor = .resume i → i ∈ (base.drop 1).map Prod.fst

theorem WellFormed.nodup_chain (h : l.WellFormed) : (l.chain.map Prod.fst).Nodup := by
  cases harena : l.arena with
  | none => simp [UndoLog.chain, harena]
  | some a =>
      rw [chain_of_arena harena]
      exact (h.arena a harena).nodup_chain

theorem WellFormed.not_insert_boundary (h : l.WellFormed) (ha : l.acceptsRecords = true) :
    ∀ i pos n es, l.boundary.chain ≠ (i, .insert pos n) :: es := by
  intro i pos n es hc
  have hrecords := h.records_boundary
  rw [ha, if_pos rfl, records_eq, hc, List.map_cons] at hrecords
  cases hr : l.records with
  | nil => simp [hr, Record.close] at hrecords
  | cons r rs => cases r <;> simp [hr, Record.close, Record.isBoundary] at hrecords

namespace Grown

/-- The newest record is never the one that the cursor names. -/
theorem cursor_ne_newest (h : l.Grown base cursor) (hl : l.WellFormed) :
    ∀ e es, l.chain = e :: es → l.cursor ≠ .resume e.1 := by
  intro e es hc hcursor
  obtain ⟨news, hnews⟩ := h.chain_eq
  have hmem := h.behind e.1 (h.cursor_eq.symm.trans hcursor)
  have hnodup := hl.nodup_chain
  rw [hc, List.map_cons, List.nodup_cons] at hnodup
  apply hnodup.1
  rw [hc] at hnews
  cases news with
  | nil =>
      rw [List.nil_append] at hnews
      rw [← hnews] at hmem
      exact hmem
  | cons x news =>
      rw [(List.cons.inj hnews).2, List.append_eq, List.map_append]
      exact List.mem_append_right _ (List.map_subset _ (List.drop_subset 1 base) hmem)

theorem record (h : l.Grown base cursor) (hl : l.WellFormed) (hr : l.replaying = true)
    (r : Record) :
    (l.record r).Grown base cursor := by
  cases ha : l.acceptsRecords with
  | false => rwa [record_of_rejects ha]
  | true =>
      obtain ⟨news, hnews⟩ := h.chain_eq
      obtain ⟨i, -, hc⟩ := hl.chain_record ha r
      refine ⟨⟨(i, r) :: news, by rw [hc, hnews, List.cons_append]⟩, ?_, h.closed, h.behind⟩
      rw [cursor_record ha, hr, if_pos rfl, h.cursor_eq]

/-- An insertion is merged at most into a record that is on top of the closed chain. -/
theorem recordInsert (h : l.Grown base cursor) (hl : l.WellFormed) (hr : l.replaying = true)
    (pos length : Nat) : (l.recordInsert pos length).Grown base cursor := by
  cases ha : l.acceptsRecords with
  | false => rwa [recordInsert_of_rejects ha]
  | true =>
      obtain ⟨news, hnews⟩ := h.chain_eq
      have hcursor : (l.recordInsert pos length).cursor = cursor := by
        rw [hl.cursor_recordInsert ha pos length (h.cursor_ne_newest hl), hr, if_pos rfl,
          h.cursor_eq]
      refine ⟨?_, hcursor, h.closed, h.behind⟩
      rcases hl.chain_recordInsert ha pos length with ⟨i, start, n, j, es, hc, -, hl⟩ | ⟨-, j, hl⟩
      · rw [hnews] at hc
        cases news with
        -- nothing is on top yet, and the record below is no insertion
        | nil => exact absurd hc (h.closed i start n es)
        | cons x news =>
            refine ⟨(j, .insert start (n + length)) :: news, ?_⟩
            rw [hl, ← (List.cons.inj hc).2, List.append_eq, List.cons_append]
      · exact ⟨(j, .insert pos length) :: news, by rw [hl, hnews, List.cons_append]⟩

theorem endReplay (h : l.Grown base cursor) : l.endReplay.Grown base cursor :=
  ⟨h.chain_eq, h.cursor_eq, h.closed, h.behind⟩

theorem boundary (h : l.Grown base cursor) (hl : l.WellFormed) : l.boundary.Grown base cursor := by
  obtain ⟨news, hnews⟩ := h.chain_eq
  obtain ⟨closing, hclosing⟩ := hl.chain_boundary
  refine ⟨⟨closing ++ news, by rw [hclosing, hnews, List.append_assoc]⟩, ?_, h.closed, h.behind⟩
  rw [cursor_boundary, h.cursor_eq]

/-- The cursor names a record of the closed chain, so it names one of the log. -/
theorem mem_chain (h : l.Grown base cursor) {i : Nat} (hi : i ∈ base.map Prod.fst) :
    i ∈ l.chain.map Prod.fst := by
  obtain ⟨news, hnews⟩ := h.chain_eq
  rw [hnews, List.map_append]
  exact List.mem_append_right _ hi

end Grown

/-- Behind the group that is taken lie older records, and the cursor is moved to one of them. -/
theorem WellFormed.split_next (h : l.WellFormed) :
    ∃ newer, l.chain = newer ++ (l.nextEntries ++ l.behindEntries) := by
  obtain ⟨newer, hc⟩ := h.ahead_suffix
  refine ⟨newer ++ l.ahead.takeWhile fun e => e.2.isBoundary, ?_⟩
  rw [nextEntries, behindEntries, List.takeWhile_append_dropWhile, List.append_assoc,
    List.takeWhile_append_dropWhile]
  exact hc

theorem cursorBehind_mem_drop {es : List (Nat × Record)} {i : Nat}
    (h : cursorBehind es = .resume i) :
    i ∈ (es.drop 1).map Prod.fst := by
  rcases es with _ | ⟨e, _ | ⟨d, es⟩⟩
  · cases h
  · cases h
  · cases h
    simp

/-- When the newest group is closed and the next one has been taken, an undo may begin. -/
theorem WellFormed.grown_nextGroup (h : l.WellFormed) (ha : l.acceptsRecords = true)
    (hn : l.boundary.nextGroup.1 ≠ .error .noFurtherUndo) :
    l.boundary.nextGroup.2.beginReplay.Grown l.boundary.chain l.boundary.nextGroup.2.cursor := by
  have hb := h.boundary
  have he : l.boundary.isEnabled = true := by rw [isEnabled_boundary, isEnabled_of_accepts ha]
  have hcursor : l.boundary.nextGroup.2.cursor = cursorBehind l.boundary.behindEntries := by
    rw [nextGroup_eq he]
  refine ⟨⟨[], ?_⟩, rfl, h.not_insert_boundary ha, fun i hi => ?_⟩
  · exact chain_nextGroup l.boundary
  · obtain ⟨newer, hc⟩ := hb.split_next
    have hne : l.boundary.nextEntries ≠ [] := by
      intro hnil
      rw [nextGroup_eq he, hnil] at hn
      exact hn rfl
    have hi := cursorBehind_mem_drop (hcursor.symm.trans hi)
    obtain ⟨e, es, hes⟩ := List.exists_cons_of_ne_nil hne
    have hi := List.map_subset _ (List.drop_subset 1 _) hi
    rw [hc, hes]
    cases newer with
    | nil =>
        rw [List.nil_append, List.cons_append, List.drop_succ_cons, List.drop_zero, List.map_append]
        exact List.mem_append_right _ hi
    | cons x newer =>
        rw [List.cons_append, List.drop_succ_cons, List.drop_zero, List.map_append, List.map_append]
        exact List.mem_append_right _ (List.mem_append_right _ hi)

end Editing.UndoLog
