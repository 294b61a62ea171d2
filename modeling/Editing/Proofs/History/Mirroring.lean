import Editing.Proofs.History.Holding

/-!
# Undo logs and plain lists

An undo log does on its arena what its plain list does. For the records this is what the chain of
the arena tells. A cursor names a slot, and the plain log counts the records from there on.
-/

namespace Editing

namespace UndoLog

variable {l m : UndoLog} {r : Record}

/-! ## Each operation on the plain list -/

theorem plain_eq (l : UndoLog) :
    l.plain = ⟨l.arena.map Arena.records, l.suspended, l.replaying, l.markOf l.cursor⟩ := rfl

theorem plain_of_arena {a : Arena} (h : l.arena = some a) :
    l.plain = ⟨some l.records, l.suspended, l.replaying, l.markOf l.cursor⟩ := by
  rw [plain_eq, records, h]
  rfl

theorem plain_of_disabled (h : l.arena = none) :
    l.plain = ⟨none, l.suspended, l.replaying, .idle⟩ := by
  rw [plain_eq, markOf, h]
  rfl

@[simp] theorem records_plain (l : UndoLog) : l.plain.records = l.records := by
  cases harena : l.arena with
  | none => rw [plain_of_disabled harena, records, harena]; rfl
  | some a => rw [plain_of_arena harena]; rfl

@[simp] theorem isEnabled_plain (l : UndoLog) : l.plain.isEnabled = l.isEnabled :=
  Option.isSome_map

@[simp] theorem acceptsRecords_plain (l : UndoLog) : l.plain.acceptsRecords = l.acceptsRecords := by
  rw [acceptsRecords, PlainLog.acceptsRecords, plain_eq, Option.isSome_map]

@[simp] theorem size_plain (l : UndoLog) : l.plain.size = l.size := by
  rw [PlainLog.size, records_plain, size]

@[simp] theorem groupCount_plain (l : UndoLog) : l.plain.groupCount = l.groupCount := by
  rw [PlainLog.groupCount, records_plain, groupCount]

theorem WellFormed.length_plain (h : l.WellFormed) : l.plain.length = l.length := by
  rw [PlainLog.length, records_plain, records_eq, List.length_map, chain, length]
  cases harena : l.arena with
  | none => rfl
  | some a => exact (h.arena a harena).used_eq.symm

end UndoLog

namespace PlainLog

variable {l : PlainLog} {r : Record} {rs : List Record}

theorem record_of_rejects (h : l.acceptsRecords = false) (r : Record) : l.record r = l := by
  rcases l with ⟨_ | rs, _ | _, replaying, mark⟩
  · rfl
  · rfl
  · cases h
  · rfl

theorem recordInsert_of_rejects (h : l.acceptsRecords = false) (pos length : Nat) :
    l.recordInsert pos length = l := by
  rcases l with ⟨_ | rs, _ | _, replaying, mark⟩
  · rfl
  · rfl
  · cases h
  · rfl

theorem record_of_accepts (hh : l.history = some rs) (hs : l.suspended = false) (r : Record) :
    l.record r =
      { l with history := some (r :: rs), mark := if l.replaying then l.mark else .idle } := by
  rw [record, hh, hs]

theorem recordInsert_apart {pos : Nat}
    (h : ∀ start n rs, l.history = some (.insert start n :: rs) → start + n ≠ pos) (length : Nat) :
    l.recordInsert pos length = l.record (.insert pos length) := by
  unfold recordInsert
  split
  · rename_i start n rs _ hh
    rw [if_neg (h start n rs hh)]
  · rfl

/-- An insertion that goes on where the newest one ends takes its place. -/
theorem recordInsert_merged {start n pos : Nat} (hh : l.history = some (.insert start n :: rs))
    (hs : l.suspended = false) (hp : start + n = pos) (length : Nat)
    (hmark : l.mark ≠ .remaining (rs.length + 1)) :
    l.recordInsert pos length =
      { l with
        history := some (.insert start (n + length) :: rs)
        mark := if l.replaying then l.mark else .idle } := by
  simp only [recordInsert, hh, hs, hp, if_true, if_neg hmark, record]

end PlainLog

namespace UndoLog

variable {l m : UndoLog} {r : Record}

theorem WellFormed.plain_record (h : l.WellFormed) (hc : l.Holds l.cursor) (r : Record) :
    (l.record r).plain = l.plain.record r := by
  cases ha : l.acceptsRecords with
  | false =>
      rw [record_of_rejects ha, PlainLog.record_of_rejects (by rwa [acceptsRecords_plain])]
  | true =>
      have hs := suspended_of_accepts ha
      obtain ⟨a, harena⟩ := exists_arena_of_enabled (isEnabled_of_accepts ha)
      have harena' : (l.record r).arena = some (a.push r) := by rw [record_eq harena hs]
      have hplain := plain_of_arena harena
      rw [PlainLog.record_of_accepts (congrArg PlainLog.history hplain) (by rw [hplain, hs]),
        plain_of_arena harena', hplain, suspended_record, replaying_record, h.records_record, ha,
        if_pos rfl, cursor_record ha]
      cases hr : l.replaying with
      | false => simp only [Bool.false_eq_true, if_false, markOf_idle]
      | true => simp only [if_true, ((h.keeps_record r).holds _ hc).2]

theorem WellFormed.plain_recordInsert (h : l.WellFormed) (hc : l.Holds l.cursor)
    (pos length : Nat) : (l.recordInsert pos length).plain = l.plain.recordInsert pos length := by
  cases ha : l.acceptsRecords with
  | false =>
      rw [recordInsert_of_rejects ha,
        PlainLog.recordInsert_of_rejects (by rwa [acceptsRecords_plain])]
  | true =>
      obtain ⟨a, harena⟩ := exists_arena_of_enabled (isEnabled_of_accepts ha)
      have hplain := plain_of_arena harena
      rcases merges_or_apart l pos with ⟨i, start, n, es, hchain, hp⟩ | hapart
      · have hs := suspended_of_accepts ha
        have hrecords : l.records = .insert start n :: es.map Prod.snd := by
          rw [records_eq, hchain, List.map_cons]
        have hhistory : l.plain.history = some (.insert start n :: es.map Prod.snd) := by
          rw [hplain, hrecords]
        have hmark : l.plain.mark ≠ .remaining ((es.map Prod.snd).length + 1) := by
          rw [List.length_map]
          exact hc.markOf_ne h hchain
        obtain ⟨b, hb, hbc, heq⟩ := h.recordInsert_merged ha hchain hp length
        have harena' : (l.recordInsert pos length).arena =
            some (b.push (.insert start (n + length))) := by rw [heq]
        rw [PlainLog.recordInsert_merged hhistory (by rw [hplain, hs]) hp length hmark,
          plain_of_arena harena', hplain, suspended_recordInsert, replaying_recordInsert,
          h.records_recordInsert, ha, if_pos rfl, hrecords, Record.addInsert, if_pos hp,
          h.cursor_recordInsert ha pos length fun _ _ => hc.ne_newest h]
        cases hr : l.replaying with
        | false => simp only [Bool.false_eq_true, if_false, markOf_idle]
        | true => simp only [if_true, ((h.keeps_recordInsert pos length).holds _ hc).2]
      · have hhistory : ∀ start n rs, l.plain.history = some (.insert start n :: rs) →
            start + n ≠ pos := by
          intro start n rs hh
          rw [hplain, records_eq] at hh
          obtain ⟨e, es, hchain, he, -⟩ := List.map_eq_cons_iff.mp (Option.some.inj hh)
          exact hapart e.1 start n es (by rw [hchain, ← he])
        rw [h.recordInsert_apart hapart, PlainLog.recordInsert_apart hhistory]
        exact h.plain_record hc _

theorem WellFormed.plain_boundary (h : l.WellFormed) (hc : l.Holds l.cursor) :
    l.boundary.plain = l.plain.boundary := by
  have hkept := ((h.keeps_boundary).holds _ hc).2
  cases harena : l.arena with
  | none =>
      have heq : l.boundary = l := by simp only [UndoLog.boundary, harena, ite_self]
      rw [heq, plain_of_disabled harena, PlainLog.boundary]
      cases l.suspended <;> rfl
  | some a =>
      obtain ⟨a', harena'⟩ := exists_arena_of_enabled
        ((isEnabled_boundary l).trans (by rw [isEnabled, harena, Option.isSome_some]))
      rw [plain_of_arena harena', plain_of_arena harena, suspended_boundary, replaying_boundary,
        cursor_boundary, hkept, h.records_boundary, acceptsRecords, harena]
      cases hs : l.suspended with
      | true => rfl
      | false =>
          cases hr : l.records with
          | nil => rfl
          | cons r rs => cases r <;> rfl

/-- The records that the plain log has ahead are those that the cursor has. -/
theorem WellFormed.ahead_plain (h : l.WellFormed) (hc : l.Holds l.cursor) :
    l.plain.ahead l.records = l.remaining := by
  have hmark : l.plain.mark = l.markOf l.cursor := rfl
  rw [PlainLog.ahead, hmark]
  cases hcursor : l.cursor with
  | idle => rw [markOf_idle, remaining_idle hcursor]
  | exhausted =>
      rw [hcursor] at hc
      rw [markOf_exhausted hc, remaining, ahead_exhausted hcursor]
      rfl
  | resume i =>
      rw [hcursor] at hc
      obtain ⟨newer, b, r, older, hsplit, -⟩ := hc
      rw [List.append_cons] at hsplit
      have hdrop : l.records.length - (older.length + 1) =
          (newer ++ [(b, Record.boundary)]).length := by
        rw [records_eq, hsplit, List.length_map, List.length_append, List.length_cons,
          Nat.add_sub_cancel]
      rw [h.markOf_resume hsplit, remaining, h.ahead_resume hcursor hsplit]
      simp only [hdrop]
      rw [records_eq, hsplit, List.map_append, List.drop_left' (List.length_map _)]

theorem Sound.plain_nextGroup (h : l.Sound) :
    l.plain.nextGroup = (l.nextGroup.1, l.nextGroup.2.plain) := by
  cases he : l.isEnabled with
  | false =>
      have harena : l.arena = none := by simpa [isEnabled] using he
      rw [nextGroup_of_disabled he, plain_of_disabled harena]
      rfl
  | true =>
      obtain ⟨a, harena⟩ := exists_arena_of_enabled he
      have hplain := plain_of_arena harena
      have hahead := h.wellFormed.ahead_plain h.holds
      have harena' : l.nextGroup.2.arena = some a := by rw [arena_nextGroup, harena]
      have hmark : l.nextGroup.2.markOf l.nextGroup.2.cursor =
          PlainLog.markBehind (l.behindEntries.map Prod.snd) := by
        rw [← (h.cursorBehind he).2, nextGroup_eq he]
        rfl
      rw [plain_of_arena harena', hmark, nextGroup_eq he, PlainLog.nextGroup]
      simp only [congrArg PlainLog.history hplain, hahead, ← next_records, ← behind_records,
        List.isEmpty_map]
      rw [hplain]
      split <;> rfl

theorem plain_disable (l : UndoLog) : l.disable.plain = l.plain.disable := rfl

theorem plain_enable (l : UndoLog) : l.enable.plain = l.plain.enable := by
  cases harena : l.arena with
  | none => rw [plain_of_disabled harena, enable, harena]; rfl
  | some a =>
      have heq : l.enable = l := by simp only [enable, harena]
      rw [heq, plain_of_arena harena]
      rfl

theorem plain_clear (l : UndoLog) : l.clear.plain = l.plain.clear := by
  cases harena : l.arena with
  | none => rw [plain_of_disabled harena, clear, harena]; rfl
  | some a => rw [plain_of_arena harena, clear, harena]; rfl

theorem plain_beginReplay (l : UndoLog) : l.beginReplay.plain = l.plain.beginReplay := rfl

theorem plain_endReplay (l : UndoLog) : l.endReplay.plain = l.plain.endReplay := rfl

theorem plain_rewind (l : UndoLog) (c : Cursor) :
    (l.rewind c).plain = l.plain.rewind (l.markOf c) := rfl

/-! ## Truncation of the plain list -/

/-- Cutting back does the same to both logs, and leaves a cursor that holds. -/
theorem Sound.plain_cutBack (h : l.Sound) (soft strong : Nat) :
    (l.cutBack soft strong).2.Holds (l.cutBack soft strong).2.cursor ∧
      l.plain.cutBack soft strong =
        ((l.cutBack soft strong).1, (l.cutBack soft strong).2.plain) := by
  cases harena : l.arena with
  | none =>
      have heq : l.cutBack soft strong = (.unchanged, l) := by rw [UndoLog.cutBack, harena]
      rw [heq, plain_of_disabled harena]
      exact ⟨h.holds, rfl⟩
  | some a =>
      have hplain := plain_of_arena harena
      cases hkept : Record.keptWithin soft strong l.records with
      | none =>
          rw [cutBack_of_uncut hkept, hplain, PlainLog.cutBack]
          simp only [hkept, and_true]
          exact h.holds
      | some k =>
          have hcut := CutTo.cutBack l soft strong
          obtain ⟨hlt, houtcome, hchain, henabled, hcursor⟩ := h.wellFormed.cutBack_of_cut hkept
          have he : (l.cutBack soft strong).2.isEnabled = true := by
            rw [henabled, isEnabled, harena, Option.isSome_some]
          obtain ⟨a', harena'⟩ := exists_arena_of_enabled he
          obtain ⟨hholds, hmark⟩ := h.holds.cut h.wellFormed (hcut.wellFormed h.wellFormed) he hlt
            hchain hcursor
          have hrecords : (l.cutBack soft strong).2.records = l.records.take k := by
            rw [UndoLog.records_eq, hchain, List.map_take, ← UndoLog.records_eq]
          have hlength : l.chain.length = l.records.length := by
            rw [UndoLog.records_eq, List.length_map]
          refine ⟨hholds, ?_⟩
          rw [plain_of_arena harena', hmark, hrecords, houtcome, hcut.suspended_eq,
            hcut.replaying_eq, hlength, hplain, PlainLog.cutBack]
          simp only [hkept]

theorem Sound.cutBack (h : l.Sound) (soft strong : Nat) : (l.cutBack soft strong).2.Sound := by
  have hcut := CutTo.cutBack l soft strong
  obtain ⟨k, hrecords⟩ := hcut.records h.wellFormed
  refine ⟨hcut.wellFormed h.wellFormed, ?_, (h.plain_cutBack soft strong).1⟩
  rw [hrecords]
  exact h.separate.take k

/-! ## Truncation with a handler -/

theorem WellFormed.plain_action (h : l.WellFormed) (hs : l.suspended = true) (a : LogAction) :
    l.plain.act a = ((a.run l).reply, (a.run l).log.plain) := by
  have hrejects : l.acceptsRecords = false := by
    rw [acceptsRecords, hs, Bool.not_true, Bool.and_false]
  have hplain : l.plain.acceptsRecords = false := by rw [acceptsRecords_plain, hrejects]
  cases a with
  | record r =>
      rw [LogAction.run, PlainLog.act, record_of_rejects hrejects,
        PlainLog.record_of_rejects hplain, hplain, hrejects]
  | recordInsert pos length =>
      rw [LogAction.run, PlainLog.act, recordInsert_of_rejects hrejects,
        PlainLog.recordInsert_of_rejects hplain, hplain, hrejects]
  | boundary =>
      have hsuspended : l.plain.suspended = true := hs
      rw [LogAction.run, PlainLog.act, UndoLog.boundary, if_pos hs, PlainLog.boundary, hsuspended]
  | clear => rw [LogAction.run, PlainLog.act, plain_clear]
  | disable => rw [LogAction.run, PlainLog.act, plain_disable]
  | enable => rw [LogAction.run, PlainLog.act, plain_enable]
  | isEnabled => rw [LogAction.run, PlainLog.act, isEnabled_plain]
  | acceptsRecords => rw [LogAction.run, PlainLog.act, acceptsRecords_plain]
  | isEmpty => rw [LogAction.run, PlainLog.act, h.length_plain]
  | length => rw [LogAction.run, PlainLog.act, h.length_plain]
  | size => rw [LogAction.run, PlainLog.act, size_plain]
  | groupCount => rw [LogAction.run, PlainLog.act, groupCount_plain]
  | truncate soft strong outer handler =>
      rw [LogAction.run_of_refusal hs rfl, PlainLog.act]

theorem WellFormed.plain_actions (h : l.WellFormed) (hs : l.suspended = true)
    (actions : List LogAction) :
    l.plain.actAll actions =
      ((runActions actions l).replies, (runActions actions l).log.plain) := by
  induction actions generalizing l with
  | nil => rfl
  | cons a actions ih =>
      have hcut := CutTo.action hs a
      rw [PlainLog.actAll, h.plain_action hs a]
      simp only [ih (hcut.wellFormed h) (hcut.suspended_eq.trans hs), runActions]

/-- The truncation leaves the log sound, and does the same to the plain log. -/
def Truncates (l : UndoLog) (limits : Limits) (run : TruncationRun) : Prop :=
  run.log.Sound ∧ l.plain.truncate limits = ((run.outcome, run.calls), run.log.plain)

theorem plain_newestCost (l : UndoLog) :
    Record.totalCost (Record.newestGroup l.plain.records) = l.newestCost := by
  rw [records_plain, newestCost]

theorem Sound.truncates_uncalled (h : l.Sound) (hs : l.suspended = false) {limits : Limits}
    (hcalled : (limits.handler.isSome && passes limits.outer l.newestCost) = false) :
    l.Truncates limits (l.truncate limits) := by
  have hsuspended : l.plain.suspended = false := hs
  have huncalled : limits.handler.map Handler.run = none ∨
      passes limits.outer l.newestCost = false := by
    cases hhandler : limits.handler with
    | none => exact .inl rfl
    | some handler =>
        rw [hhandler] at hcalled
        exact .inr hcalled
  rw [UndoLog.truncate, truncateWith_of_uncalled hs _ _ huncalled]
  refine ⟨h.cutBack _ _, ?_⟩
  rw [PlainLog.truncate, hsuspended, plain_newestCost, (h.plain_cutBack _ _).2]
  simp only [Bool.false_eq_true, if_false]
  split
  · rename_i hhandler hpasses
    rw [hhandler, hpasses] at hcalled
    cases hcalled
  · rfl

theorem Sound.truncates_called (h : l.Sound) (hs : l.suspended = false) {limits : Limits}
    {actions : List LogAction} {handled : Bool}
    (hhandler : limits.handler = some ⟨actions, handled⟩)
    (hpasses : passes limits.outer l.newestCost = true) :
    l.Truncates limits (l.truncate limits) := by
  have hsuspended : l.plain.suspended = false := hs
  let inside := runActions actions { l with suspended := true }
  let left := { inside.log with suspended := false }
  have henabled : isEnabled { l with suspended := true } = true := enabled_of_passes hpasses
  have hleft : left.Sound := h.of_remains ((withstands henabled rfl actions).remains.resume hs)
  have hactions : PlainLog.actAll ⟨l.plain.history, true, l.plain.replaying, l.plain.mark⟩
      actions = (inside.replies, inside.log.plain) :=
    (h.suspend true).wellFormed.plain_actions rfl actions
  obtain ⟨hcalls, hsettled, hdeclined⟩ := truncate_of_called hs hhandler hpasses
  rw [Truncates, PlainLog.truncate, hsuspended, plain_newestCost, hhandler, hcalls]
  simp only [Bool.false_eq_true, if_false, hpasses, hactions]
  cases handled with
  | true =>
      obtain ⟨houtcome, hlog⟩ := hsettled rfl
      rw [houtcome, hlog]
      exact ⟨hleft, rfl⟩
  | false =>
      -- What the handler has left is cut back as if there were no handler.
      have hcut : left.truncate { limits with handler := none } =
          ⟨.ok (left.cutBack limits.soft limits.strong).1,
            (left.cutBack limits.soft limits.strong).2, []⟩ :=
        truncateWith_of_uncalled rfl limits.soft limits.strong (.inl rfl)
      obtain ⟨houtcome, hlog⟩ := hdeclined rfl
      rw [houtcome.trans (congrArg TruncationRun.outcome hcut),
        hlog.trans (congrArg TruncationRun.log hcut)]
      have hplain : PlainLog.cutBack ⟨inside.log.plain.history, false,
            inside.log.plain.replaying, inside.log.plain.mark⟩ limits.soft limits.strong =
          _ := (hleft.plain_cutBack limits.soft limits.strong).2
      rw [hplain]
      exact ⟨hleft.cutBack _ _, rfl⟩

/-- Truncating does the same to both logs, and their handlers are answered alike. -/
theorem Sound.truncates (h : l.Sound) (limits : Limits) :
    l.Truncates limits (l.truncate limits) := by
  cases hs : l.suspended with
  | true =>
      have hsuspended : l.plain.suspended = true := hs
      rw [UndoLog.truncate, truncateWith_of_suspended hs, Truncates, PlainLog.truncate, hsuspended]
      exact ⟨h, rfl⟩
  | false =>
      cases hcalled : limits.handler.isSome && passes limits.outer l.newestCost with
      | false => exact h.truncates_uncalled hs hcalled
      | true =>
          obtain ⟨hsome, hpasses⟩ := Bool.and_eq_true_iff.mp hcalled
          obtain ⟨⟨actions, handled⟩, hhandler⟩ := Option.isSome_iff_exists.mp hsome
          exact h.truncates_called hs hhandler hpasses

end UndoLog

end Editing
