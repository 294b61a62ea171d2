import Editing.Proofs.History.Logging

/-!
# Logs cut back and cursors moved

Whatever a truncation does, and whatever its handler does meanwhile, a log keeps its newest records
up to some point and loses the others. Taking a group to undo moves the cursor and nothing else.
-/

namespace Editing.UndoLog

variable {l : UndoLog}

/-! ## The cursor -/

theorem WellFormed.ahead_suffix (h : l.WellFormed) : ∃ newer, l.chain = newer ++ l.ahead := by
  cases harena : l.arena with
  | none => exact ⟨[], by simp [chain, ahead, harena]⟩
  | some a =>
      have ha := h.arena a harena
      rw [chain_of_arena harena, ahead, harena]
      cases hc : l.cursor with
      | idle =>
          refine ⟨[], ?_⟩
          simp only [resumption, hc, List.nil_append]
          rfl
      | resume i =>
          obtain ⟨e, he, hei⟩ := List.mem_map.mp (h.cursor i hc)
          rw [chain_of_arena harena] at he
          obtain ⟨newer, older, hsplit⟩ := List.append_of_mem he
          refine ⟨newer, ?_⟩
          simp only [resumption, hc]
          rw [← hei, ha.chainFrom_eq hsplit, hsplit]
      | exhausted =>
          refine ⟨a.chain, ?_⟩
          simp only [resumption, hc]
          cases hu : a.used <;> simp [Arena.chainFrom, Arena.walk, hu]

theorem ahead_idle (h : l.cursor = .idle) : l.ahead = l.chain := by
  cases harena : l.arena with
  | none => simp [ahead, chain, harena]
  | some a => simp [ahead, chain, harena, resumption, h, Arena.chain]

theorem ahead_exhausted (h : l.cursor = .exhausted) : l.ahead = [] := by
  cases harena : l.arena with
  | none => simp [ahead, harena]
  | some a =>
      cases hu : a.used <;> simp [ahead, harena, resumption, h, Arena.chainFrom, Arena.walk, hu]

theorem WellFormed.ahead_resume (h : l.WellFormed) {newer older : List (Nat × Record)}
    {e : Nat × Record} (hc : l.cursor = .resume e.1) (hl : l.chain = newer ++ e :: older) :
    l.ahead = e :: older := by
  cases harena : l.arena with
  | none => simp [chain, harena] at hl
  | some a =>
      rw [chain_of_arena harena] at hl
      simp only [ahead, harena, resumption, hc]
      exact (h.arena a harena).chainFrom_eq hl

/-- The entries of the group that the next undo takes, and those behind it. -/
def nextEntries (l : UndoLog) : List (Nat × Record) :=
  (l.ahead.dropWhile fun e => e.2.isBoundary).takeWhile fun e => !e.2.isBoundary

def behindEntries (l : UndoLog) : List (Nat × Record) :=
  (l.ahead.dropWhile fun e => e.2.isBoundary).dropWhile fun e => !e.2.isBoundary

theorem nextGroup_of_disabled (h : l.isEnabled = false) :
    l.nextGroup = (.error .undoDisabled, l) := by
  have harena : l.arena = none := by simpa [isEnabled] using h
  simp [nextGroup, harena]

theorem nextGroup_eq (h : l.isEnabled = true) :
    l.nextGroup =
      (if l.nextEntries.isEmpty then .error .noFurtherUndo else .ok (l.nextEntries.map Prod.snd),
        { l with cursor := cursorBehind l.behindEntries }) := by
  obtain ⟨a, harena⟩ := exists_arena_of_enabled h
  simp only [nextGroup, nextEntries, behindEntries, ahead, harena]
  split <;> rfl

theorem nextGroup_error (h : l.isEnabled = true) {e : Error} (hg : l.nextGroup.1 = .error e) :
    e = .noFurtherUndo := by
  rw [nextGroup_eq h] at hg
  split at hg
  · exact (Except.error.inj hg).symm
  · cases hg

@[simp] theorem suspended_nextGroup (l : UndoLog) : l.nextGroup.2.suspended = l.suspended := by
  cases h : l.isEnabled with
  | false => rw [nextGroup_of_disabled h]
  | true => rw [nextGroup_eq h]

@[simp] theorem replaying_nextGroup (l : UndoLog) : l.nextGroup.2.replaying = l.replaying := by
  cases h : l.isEnabled with
  | false => rw [nextGroup_of_disabled h]
  | true => rw [nextGroup_eq h]

@[simp] theorem arena_nextGroup (l : UndoLog) : l.nextGroup.2.arena = l.arena := by
  cases h : l.isEnabled with
  | false => rw [nextGroup_of_disabled h]
  | true => rw [nextGroup_eq h]

@[simp] theorem chain_nextGroup (l : UndoLog) : l.nextGroup.2.chain = l.chain := by
  rw [chain, arena_nextGroup]
  rfl

@[simp] theorem records_nextGroup (l : UndoLog) : l.nextGroup.2.records = l.records := by
  rw [records, arena_nextGroup]
  rfl

theorem cursorBehind_mem {es : List (Nat × Record)} {i : Nat} (h : cursorBehind es = .resume i) :
    i ∈ es.map Prod.fst := by
  rcases es with _ | ⟨e, _ | ⟨d, es⟩⟩
  · cases h
  · cases h
  · cases h
    simp

/-- Entries ahead of the cursor, less those at either end that are skipped, lie on the chain. -/
theorem WellFormed.behind_subset (h : l.WellFormed) {e : Nat × Record} (he : e ∈ l.behindEntries) :
    e ∈ l.chain := by
  obtain ⟨newer, hc⟩ := h.ahead_suffix
  rw [hc]
  exact List.mem_append_right _
    ((List.dropWhile_suffix _).subset ((List.dropWhile_suffix _).subset he))

theorem WellFormed.next_subset (h : l.WellFormed) {e : Nat × Record} (he : e ∈ l.nextEntries) :
    e ∈ l.chain := by
  obtain ⟨newer, hc⟩ := h.ahead_suffix
  rw [hc]
  exact List.mem_append_right _
    ((List.dropWhile_suffix _).subset ((List.takeWhile_prefix _).subset he))

theorem nextGroup_of_next (h : l.isEnabled = true) (hne : l.nextEntries ≠ []) :
    l.nextGroup.1 = .ok (l.nextEntries.map Prod.snd) := by
  rw [nextGroup_eq h]
  exact if_neg fun hempty => hne (List.isEmpty_iff.mp hempty)

theorem WellFormed.mem_of_nextGroup (h : l.WellFormed) {group : List Record}
    (hg : l.nextGroup.1 = .ok group) : group = l.nextEntries.map Prod.snd ∧ group ≠ [] ∧
      ∀ r ∈ group, r ∈ l.records := by
  cases he : l.isEnabled with
  | false =>
      rw [nextGroup_of_disabled he] at hg
      cases hg
  | true =>
      rw [nextGroup_eq he] at hg
      split at hg
      · cases hg
      · rename_i hne
        cases hg
        refine ⟨rfl, fun hnil => hne (List.isEmpty_iff.mpr (List.map_eq_nil_iff.mp hnil)), ?_⟩
        intro r hr
        obtain ⟨e, he, rfl⟩ := List.mem_map.mp hr
        rw [records_eq]
        exact List.mem_map_of_mem (h.next_subset he)

theorem WellFormed.nextGroup (h : l.WellFormed) : l.nextGroup.2.WellFormed := by
  constructor
  · intro a ha
    exact h.arena a (by rwa [arena_nextGroup] at ha)
  · intro i hi
    rw [chain_nextGroup]
    cases he : l.isEnabled with
    | false =>
        rw [nextGroup_of_disabled he] at hi
        exact h.cursor i hi
    | true =>
        rw [nextGroup_eq he] at hi
        obtain ⟨e, he, rfl⟩ := List.mem_map.mp (cursorBehind_mem hi)
        exact List.mem_map_of_mem (h.behind_subset he)

theorem WellFormed.rewind (h : l.WellFormed) {c : Cursor}
    (hc : ∀ i, c = .resume i → i ∈ l.chain.map Prod.fst) : (l.rewind c).WellFormed :=
  ⟨h.arena, hc⟩

theorem WellFormed.beginReplay (h : l.WellFormed) : l.beginReplay.WellFormed :=
  ⟨h.arena, h.cursor⟩

theorem WellFormed.endReplay (h : l.WellFormed) : l.endReplay.WellFormed :=
  ⟨h.arena, h.cursor⟩

theorem WellFormed.disable (_ : l.WellFormed) : l.disable.WellFormed where
  arena _ h := nomatch h
  cursor _ h := nomatch h

theorem WellFormed.enable (h : l.WellFormed) : l.enable.WellFormed := by
  cases harena : l.arena with
  | none =>
      simp only [UndoLog.enable, harena]
      exact ⟨fun a ha => Option.some.inj ha ▸ Arena.empty_wellFormed, fun _ h => nomatch h⟩
  | some a =>
      simp only [UndoLog.enable, harena]
      exact h

theorem WellFormed.clear (_ : l.WellFormed) : l.clear.WellFormed := by
  refine ⟨fun a ha => ?_, fun _ h => nomatch h⟩
  obtain ⟨b, -, rfl⟩ := Option.map_eq_some_iff.mp ha
  exact Arena.empty_wellFormed

/-! ## Truncation -/

theorem truncateWith_of_suspended (h : l.suspended = true) (soft strong : Nat)
    (outer : Option Nat) (handler : Option (UndoLog → HandlerRun)) :
    l.truncateWith soft strong outer handler = ⟨.error .reentrantTruncation, l, []⟩ := by
  simp [truncateWith, h]

/-- Only a log whose handler is at work refuses to be truncated. -/
theorem truncateWith_ok (h : l.suspended = false) (soft strong : Nat) (outer : Option Nat)
    (handler : Option (UndoLog → HandlerRun)) :
    ∃ truncation, (l.truncateWith soft strong outer handler).outcome = .ok truncation := by
  rw [truncateWith, h, if_neg Bool.false_ne_true]
  cases l.arena with
  | none => exact ⟨_, rfl⟩
  | some a =>
      simp only
      split
      · split <;> exact ⟨_, rfl⟩
      · exact ⟨_, rfl⟩

/-- What a log may have become while it was cut back: some of the newest records are left. -/
structure CutTo (l m : UndoLog) : Prop where
  wellFormed : l.WellFormed → m.WellFormed
  kept : l.WellFormed → ∃ k, m.chain = l.chain.take k
  suspended_eq : m.suspended = l.suspended
  replaying_eq : m.replaying = l.replaying

namespace CutTo

theorem refl (l : UndoLog) : l.CutTo l :=
  ⟨id, fun _ => ⟨l.chain.length, (List.take_length ..).symm⟩, rfl, rfl⟩

theorem trans {l m n : UndoLog} (h : l.CutTo m) (h' : m.CutTo n) : l.CutTo n where
  wellFormed hl := h'.wellFormed (h.wellFormed hl)
  kept hl := by
    obtain ⟨j, hj⟩ := h.kept hl
    obtain ⟨k, hk⟩ := h'.kept (h.wellFormed hl)
    exact ⟨min k j, by rw [hk, hj, List.take_take]⟩
  suspended_eq := h'.suspended_eq.trans h.suspended_eq
  replaying_eq := h'.replaying_eq.trans h.replaying_eq

theorem records {m : UndoLog} (h : l.CutTo m) (hl : l.WellFormed) :
    ∃ k, m.records = l.records.take k := by
  obtain ⟨k, hk⟩ := h.kept hl
  exact ⟨k, by rw [records_eq, hk, List.map_take, ← records_eq]⟩

theorem clear (l : UndoLog) : l.CutTo l.clear where
  wellFormed := WellFormed.clear
  kept _ := by
    refine ⟨0, ?_⟩
    cases harena : l.arena with
    | none => simp [UndoLog.clear, chain, harena]
    | some a => simp [UndoLog.clear, chain, harena]
  suspended_eq := rfl
  replaying_eq := rfl

theorem disable (l : UndoLog) : l.CutTo l.disable :=
  ⟨WellFormed.disable, fun _ => ⟨0, by simp [chain, UndoLog.disable]⟩, rfl, rfl⟩

theorem enable (l : UndoLog) : l.CutTo l.enable where
  wellFormed := WellFormed.enable
  kept _ := by
    cases harena : l.arena with
    | none => exact ⟨0, by simp [UndoLog.enable, chain, harena]⟩
    | some a => exact ⟨l.chain.length, by simp [UndoLog.enable, harena]⟩
  suspended_eq := by cases harena : l.arena <;> simp [UndoLog.enable, harena]
  replaying_eq := by cases harena : l.arena <;> simp [UndoLog.enable, harena]

/-- Cutting back severs the chain behind one of its entries, or leaves the log as it is. -/
theorem cutBack (l : UndoLog) (soft strong : Nat) : l.CutTo (l.cutBack soft strong).2 := by
  cases harena : l.arena with
  | none =>
      simp only [UndoLog.cutBack, harena]
      exact refl l
  | some a =>
      cases hkept : Record.keptWithin soft strong a.records with
      | none =>
          simp only [UndoLog.cutBack, harena, hkept]
          exact refl l
      | some kept =>
          cases hlast : a.chain[kept - 1]? with
          | none =>
              simp only [UndoLog.cutBack, harena, hkept, hlast]
              exact refl l
          | some last =>
              obtain ⟨i, r⟩ := last
              simp only [UndoLog.cutBack, harena, hkept, hlast]
              have hsplit : a.chain =
                  a.chain.take (kept - 1) ++ (i, r) :: a.chain.drop (kept - 1 + 1) := by
                obtain ⟨hlt, hget⟩ := List.getElem?_eq_some_iff.mp hlast
                rw [← hget, ← List.drop_eq_getElem_cons hlt, List.take_append_drop]
              refine ⟨fun h => ?_, fun h => ?_, rfl, rfl⟩
              · obtain ⟨hreleased, hrest, hchain⟩ := (h.arena a harena).severAfter hsplit
                refine ⟨fun b hb => Option.some.inj hb ▸ hrest, fun j hj => ?_⟩
                change j ∈ (a.severAfter i).2.chain.map Prod.fst
                cases hcursor : l.cursor with
                | idle => simp [hcursor] at hj
                | exhausted => simp [hcursor] at hj
                | resume k =>
                    simp only [hcursor] at hj
                    split at hj
                    · cases hj
                    · rename_i hk
                      cases hj
                      have hmem := h.cursor j hcursor
                      rw [chain_of_arena harena, hsplit] at hmem
                      rw [hreleased] at hk
                      rw [hchain]
                      simp only [List.map_append, List.map_cons, List.map_nil, List.mem_append,
                        List.mem_cons] at hmem ⊢
                      rcases hmem with hmem | hmem | hmem
                      · exact Or.inl hmem
                      · exact Or.inr (Or.inl hmem)
                      · exact absurd hmem hk
              · obtain ⟨-, -, hchain⟩ := (h.arena a harena).severAfter hsplit
                refine ⟨kept - 1 + 1, ?_⟩
                change (a.severAfter i).2.chain = _
                obtain ⟨hlt, hget⟩ := List.getElem?_eq_some_iff.mp hlast
                rw [hchain, chain_of_arena harena, List.take_succ_eq_append_getElem hlt, hget]

/-- While a log is suspended, an action can only empty or disable it. -/
theorem action {l : UndoLog} (hs : l.suspended = true) (action : LogAction) :
    l.CutTo (action.run l).log := by
  have hrejects : l.acceptsRecords = false := by
    rw [acceptsRecords, hs, Bool.not_true, Bool.and_false]
  cases action with
  | record r =>
      simp only [LogAction.run, record_of_rejects hrejects]
      exact refl l
  | recordInsert pos length =>
      simp only [LogAction.run, recordInsert_of_rejects hrejects]
      exact refl l
  | boundary =>
      simp only [LogAction.run, boundary, hs, if_true]
      exact refl l
  | clear =>
      simp only [LogAction.run]
      exact clear l
  | disable =>
      simp only [LogAction.run]
      exact disable l
  | enable =>
      simp only [LogAction.run]
      exact enable l
  | truncate soft strong outer handler =>
      unfold LogAction.run
      split
      · exact refl l
      · simp only [truncateWith_of_suspended hs]
        exact refl l
  | isEnabled => simp only [LogAction.run]; exact refl l
  | acceptsRecords => simp only [LogAction.run]; exact refl l
  | isEmpty => simp only [LogAction.run]; exact refl l
  | length => simp only [LogAction.run]; exact refl l
  | size => simp only [LogAction.run]; exact refl l
  | groupCount => simp only [LogAction.run]; exact refl l

theorem actions {l : UndoLog} (hs : l.suspended = true) (actions : List LogAction) :
    l.CutTo (runActions actions l).log := by
  induction actions generalizing l with
  | nil =>
      simp only [runActions]
      exact refl l
  | cons a as ih =>
      simp only [runActions]
      have hfirst := action hs a
      exact hfirst.trans (ih (hfirst.suspended_eq.trans hs))

theorem handler {l : UndoLog} (hs : l.suspended = true) (h : Handler) :
    l.CutTo (h.run l).log := by
  cases h with
  | act as handled =>
      simp only [Handler.run]
      exact actions hs as

theorem suspend (l : UndoLog) (b : Bool) :
    (l.WellFormed → UndoLog.WellFormed { l with suspended := b }) ∧
      UndoLog.chain { l with suspended := b } = l.chain :=
  ⟨fun h => ⟨h.arena, h.cursor⟩, rfl⟩

/-- While the handler of a truncation runs, the log is suspended, and afterwards it is not. -/
theorem handled (hs : l.suspended = false) (h : Handler) :
    l.CutTo { (h.run { l with suspended := true }).log with suspended := false } := by
  have hrun : CutTo { l with suspended := true } (h.run { l with suspended := true }).log :=
    handler rfl h
  refine ⟨fun hl => ?_, fun hl => ?_, hs.symm, hrun.replaying_eq⟩
  · exact (suspend _ false).1 (hrun.wellFormed ((suspend l true).1 hl))
  · exact hrun.kept ((suspend l true).1 hl)

theorem truncate (l : UndoLog) (limits : Limits) : l.CutTo (l.truncate limits).log := by
  rw [UndoLog.truncate]
  cases hs : l.suspended with
  | true =>
      rw [truncateWith_of_suspended hs]
      exact refl l
  | false =>
      cases harena : l.arena with
      | none =>
          simp only [truncateWith, hs, harena]
          exact refl l
      | some a =>
          have hback := handled hs
          simp only [truncateWith, hs, harena, Bool.false_eq_true, if_false]
          split
          · rename_i handle hh _
            obtain ⟨h, -, rfl⟩ := Option.map_eq_some_iff.mp hh
            rw [harena] at hback
            split
            · exact hback h
            · exact (hback h).trans (cutBack _ _ _)
          · exact cutBack l _ _

end CutTo

end Editing.UndoLog
