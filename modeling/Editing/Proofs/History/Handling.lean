import Editing.Proofs.History.Cutting

/-!
# Truncations within truncations

The handler of a truncation may do to the log whatever can be done to a log, another truncation
with another handler among it. The log is suspended meanwhile. So a handler cannot change the
records that the truncation goes on with, except that it may drop them all: the log that it leaves
is the one that it was called with, or that one emptied or disabled.
-/

namespace Editing

/-! ## A suspended log -/

namespace LogAction

/-- What a suspended log answers to an action that adds a record or cuts records off. The limits of
a truncation are put in order before the log is asked. -/
def refusal : LogAction → Option LogReply
  | record _ => some (.flag false)
  | recordInsert .. => some (.flag false)
  | boundary => some .done
  | truncate soft strong .. =>
      some (.truncation (.error
        (if soft < strong then .reentrantTruncation else .limitsOrder soft strong)))
  | _ => none

/-- An action calls no handler, and if it adds a record or cuts records off, it is refused and
leaves the log as it is. -/
structure Confined (a : LogAction) (l : UndoLog) : Prop where
  calls : (a.run l).calls = []
  refused : ∀ reply, a.refusal = some reply → (a.run l).reply = reply ∧ (a.run l).log = l

variable {a : LogAction} {l : UndoLog}

theorem run_of_refusal (hs : l.suspended = true) {reply : LogReply} (h : a.refusal = some reply) :
    a.run l = ⟨l, reply, []⟩ := by
  have hrejects : l.acceptsRecords = false := by
    rw [UndoLog.acceptsRecords, hs, Bool.not_true, Bool.and_false]
  cases a with
  | record r =>
      cases h
      rw [LogAction.run, UndoLog.record_of_rejects hrejects, hrejects]
  | recordInsert pos length =>
      cases h
      rw [LogAction.run, UndoLog.recordInsert_of_rejects hrejects, hrejects]
  | boundary =>
      cases h
      rw [LogAction.run, UndoLog.boundary, if_pos hs]
  | truncate soft strong outer handler =>
      cases h
      unfold LogAction.run
      by_cases hlt : soft < strong
      · rw [Limits.ofNumbers, dif_pos hlt, if_pos hlt]
        simp only [UndoLog.truncateWith_of_suspended hs]
      · rw [Limits.ofNumbers, dif_neg hlt, if_neg hlt]
  | _ => cases h

/-- What an action that is not refused does to a log. -/
theorem run_of_admitted (h : a.refusal = none) :
    (a.run l).calls = [] ∧ ((a.run l).log = l ∨ (a.run l).log = l.clear ∨
      (a.run l).log = l.disable ∨ (a.run l).log = l.enable) := by
  cases a with
  | record r => cases h
  | recordInsert pos length => cases h
  | boundary => cases h
  | truncate soft strong outer handler => cases h
  | _ => simp [LogAction.run]

/-- A suspended log confines every action. -/
theorem confined (hs : l.suspended = true) (a : LogAction) : a.Confined l := by
  cases h : a.refusal with
  | none =>
      obtain ⟨hcalls, -⟩ := run_of_admitted (l := l) h
      exact ⟨hcalls, fun _ hreply => absurd (h.symm.trans hreply) nofun⟩
  | some reply =>
      have hrun := run_of_refusal hs h
      refine ⟨by rw [hrun], fun _ hreply => ?_⟩
      obtain rfl := Option.some.inj (h.symm.trans hreply)
      rw [hrun]
      exact ⟨rfl, rfl⟩

end LogAction

namespace UndoLog

variable {l m : UndoLog}

/-- A log is as it was, or has been emptied or disabled. -/
def Remains (l m : UndoLog) : Prop :=
  m = l ∨ m = l.clear ∨ m = l.disable

namespace Remains

theorem clear (h : l.Remains m) : l.Remains m.clear := by
  rcases h with rfl | rfl | rfl
  · exact .inr (.inl rfl)
  · refine .inr (.inl ?_)
    cases harena : l.arena <;> simp [UndoLog.clear, harena]
  · exact .inr (.inr rfl)

theorem disable (h : l.Remains m) : l.Remains m.disable := by
  rcases h with rfl | rfl | rfl
  · exact .inr (.inr rfl)
  · exact .inr (.inr rfl)
  · exact .inr (.inr rfl)

/-- A log that was enabled is empty when it is enabled again. -/
theorem enable (h : l.Remains m) (hl : l.isEnabled = true) : l.Remains m.enable := by
  obtain ⟨a, harena⟩ := exists_arena_of_enabled hl
  rcases h with rfl | rfl | rfl
  · exact .inl (by simp [UndoLog.enable, harena])
  · exact .inr (.inl (by simp [UndoLog.enable, UndoLog.clear, harena]))
  · exact .inr (.inl (by simp [UndoLog.enable, UndoLog.clear, UndoLog.disable, harena]))

theorem resume (hs : l.suspended = false) (h : Remains { l with suspended := true } m) :
    l.Remains { m with suspended := false } := by
  obtain ⟨arena, suspended, replaying, cursor⟩ := l
  cases hs
  rcases h with rfl | rfl | rfl
  · exact .inl rfl
  · exact .inr (.inl rfl)
  · exact .inr (.inr rfl)

theorem action (h : l.Remains m) (hl : l.isEnabled = true) (hs : m.suspended = true)
    (a : LogAction) : l.Remains (a.run m).log := by
  cases hrefusal : a.refusal with
  | some reply =>
      rw [LogAction.run_of_refusal hs hrefusal]
      exact h
  | none =>
      obtain ⟨-, heq | heq | heq | heq⟩ := LogAction.run_of_admitted (l := m) hrefusal
      · rwa [heq]
      · exact heq ▸ h.clear
      · exact heq ▸ h.disable
      · exact heq ▸ h.enable hl

end Remains

/-! ## The actions of a handler -/

theorem runActions_append (before after : List LogAction) (l : UndoLog) :
    (runActions (before ++ after) l).log = (runActions after (runActions before l).log).log ∧
      (runActions (before ++ after) l).replies =
        (runActions before l).replies ++ (runActions after (runActions before l).log).replies := by
  induction before generalizing l with
  | nil => exact ⟨rfl, rfl⟩
  | cons a before ih =>
      obtain ⟨hlog, hreplies⟩ := ih (a.run l).log
      rw [List.cons_append]
      simp only [runActions, hlog, hreplies, List.cons_append, and_self]

theorem length_replies (actions : List LogAction) (l : UndoLog) :
    (runActions actions l).replies.length = actions.length := by
  induction actions generalizing l with
  | nil => rfl
  | cons a actions ih => simp only [runActions, List.length_cons, ih]

theorem suspended_runActions (hs : l.suspended = true) (actions : List LogAction) :
    (runActions actions l).log.suspended = true :=
  (CutTo.actions hs actions).suspended_eq.trans hs

/-- A log bears the actions of a handler: each of them is confined when its turn comes, no handler
is called, and the log is as it was afterwards, or has been emptied or disabled. -/
structure Withstands (l : UndoLog) (actions : List LogAction) : Prop where
  confined : ∀ before a after, actions = before ++ a :: after →
    a.Confined (runActions before l).log ∧
      (runActions actions l).replies[before.length]? = some (a.run (runActions before l).log).reply
  calls : (runActions actions l).calls = []
  remains : l.Remains (runActions actions l).log

theorem confined_at (hs : l.suspended = true) {actions before after : List LogAction}
    {a : LogAction} (h : actions = before ++ a :: after) :
    a.Confined (runActions before l).log ∧
      (runActions actions l).replies[before.length]? =
        some (a.run (runActions before l).log).reply := by
  refine ⟨a.confined (suspended_runActions hs before), ?_⟩
  have hlength := length_replies before l
  rw [h, (runActions_append before (a :: after) l).2, ← hlength,
    List.getElem?_append_right (Nat.le_refl _), Nat.sub_self]
  simp only [runActions, List.getElem?_cons_zero]

theorem calls_runActions (hs : l.suspended = true) (actions : List LogAction) :
    (runActions actions l).calls = [] := by
  induction actions generalizing l with
  | nil => rfl
  | cons a actions ih =>
      have hstays := (CutTo.action hs a).suspended_eq.trans hs
      simp only [runActions, (a.confined hs).calls, ih hstays, List.append_nil]

theorem Remains.actions (h : l.Remains m) (hl : l.isEnabled = true) (hs : m.suspended = true)
    (actions : List LogAction) : l.Remains (runActions actions m).log := by
  induction actions generalizing m with
  | nil => exact h
  | cons a actions ih =>
      simp only [runActions]
      exact ih (h.action hl hs a) ((CutTo.action hs a).suspended_eq.trans hs)

theorem withstands (hl : l.isEnabled = true) (hs : l.suspended = true)
    (actions : List LogAction) : l.Withstands actions :=
  ⟨fun _ _ _ => confined_at hs, calls_runActions hs actions, .actions (.inl rfl) hl hs actions⟩

/-! ## Truncation with a handler -/

/-- The cost of the newest group, with the boundary that closes it. -/
def newestCost (l : UndoLog) : Nat :=
  Record.totalCost (Record.newestGroup l.records)

theorem newestCost_of_arena {a : Arena} (h : l.arena = some a) :
    l.newestCost = Record.totalCost (Record.newestGroup a.records) := by
  rw [newestCost, records, h]

theorem newestCost_of_disabled (h : l.arena = none) : l.newestCost = 0 := by
  rw [newestCost, records, h]
  rfl

theorem passes_iff {outer : Option Nat} {size : Nat} :
    passes outer size = true ↔ ∃ limit, outer = some limit ∧ limit < size := by
  cases outer with
  | none => simp [passes]
  | some limit => simp [passes]

theorem enabled_of_passes {outer : Option Nat} (h : passes outer l.newestCost = true) :
    l.isEnabled = true := by
  cases harena : l.arena with
  | none =>
      obtain ⟨limit, -, hlt⟩ := passes_iff.mp h
      rw [newestCost_of_disabled harena] at hlt
      omega
  | some a => rw [isEnabled, harena, Option.isSome_some]

/-- A log is cut back at once when there is no handler to call. -/
theorem truncateWith_of_uncalled (hs : l.suspended = false) (soft strong : Nat)
    {outer : Option Nat} {handler : Option (UndoLog → HandlerRun)}
    (h : handler = none ∨ passes outer l.newestCost = false) :
    l.truncateWith soft strong outer handler =
      ⟨.ok (l.cutBack soft strong).1, (l.cutBack soft strong).2, []⟩ := by
  rw [truncateWith, if_neg (by rw [hs]; exact Bool.false_ne_true)]
  cases harena : l.arena with
  | none => rw [cutBack, harena]
  | some a =>
      rw [newestCost_of_arena harena] at h
      simp only
      split
      · rename_i hpasses
        rcases h with h | h
        · cases h
        · rw [hpasses] at h
          cases h
      · rfl

/-- A handler is called when the newest group passes the outer limit. -/
theorem truncateWith_of_called (hs : l.suspended = false) (soft strong : Nat)
    {outer : Option Nat} (handle : UndoLog → HandlerRun)
    (h : passes outer l.newestCost = true) :
    let run := handle { l with suspended := true }
    let left := { run.log with suspended := false }
    let calls := run.calls ++ [⟨l.newestCost, run.replies⟩]
    l.truncateWith soft strong outer (some handle) =
      if run.handled then ⟨.ok (.handled l.newestCost), left, calls⟩
      else ⟨.ok (left.cutBack soft strong).1, (left.cutBack soft strong).2, calls⟩ := by
  intro run left calls
  obtain ⟨a, harena⟩ := exists_arena_of_enabled (enabled_of_passes h)
  rw [newestCost_of_arena harena] at h
  rw [truncateWith, if_neg (by rw [hs]; exact Bool.false_ne_true)]
  simp only [h, newestCost_of_arena harena, run, left, calls, harena]

/-- What a truncation makes of the answer of its handler, which has left a log behind. -/
structure Concludes (limits : Limits) (size : Nat) (handled : Bool) (left : UndoLog)
    (run : TruncationRun) : Prop where
  settled : handled = true → run.outcome = .ok (.handled size) ∧ run.log = left
  declined : handled = false →
    run.outcome = (left.truncate { limits with handler := none }).outcome ∧
      run.log = (left.truncate { limits with handler := none }).log

theorem truncate_of_called (hs : l.suspended = false) {limits : Limits}
    {actions : List LogAction} {handled : Bool}
    (hhandler : limits.handler = some (.act actions handled))
    (h : passes limits.outer l.newestCost = true) :
    let inside := runActions actions { l with suspended := true }
    let left := { inside.log with suspended := false }
    (l.truncate limits).calls = [⟨l.newestCost, inside.replies⟩] ∧
      Concludes limits l.newestCost handled left (l.truncate limits) := by
  intro inside left
  have hcalls : inside.calls = [] := calls_runActions rfl actions
  have hact : (Handler.act actions handled).run { l with suspended := true } =
      { inside with handled := handled } := by
    simp only [Handler.run, inside]
  have hrun := truncateWith_of_called hs limits.soft limits.strong
    (Handler.act actions handled).run h
  rw [hact] at hrun
  simp only [hcalls, List.nil_append] at hrun
  rw [truncate, hhandler, Option.map_some, hrun]
  cases handled with
  | true => exact ⟨rfl, fun _ => ⟨rfl, rfl⟩, fun h => absurd h.symm Bool.false_ne_true⟩
  | false =>
      have hleft : left.truncate { limits with handler := none } =
          ⟨.ok (left.cutBack limits.soft limits.strong).1,
            (left.cutBack limits.soft limits.strong).2, []⟩ :=
        truncateWith_of_uncalled rfl limits.soft limits.strong (.inl rfl)
      refine ⟨rfl, fun h => absurd h Bool.false_ne_true, fun _ => ?_⟩
      rw [hleft]
      exact ⟨rfl, rfl⟩

/-- A log calls its handler just if the newest group passes the outer limit, once and with the cost
of this group. -/
theorem calls_truncate (hs : l.suspended = false) (limits : Limits) :
    (l.truncate limits).calls.length ≤ 1 ∧
      (∀ call ∈ (l.truncate limits).calls, call.size = l.newestCost) ∧
      ((l.truncate limits).calls ≠ [] ↔
        limits.handler.isSome = true ∧ passes limits.outer l.newestCost = true) := by
  cases hhandler : limits.handler with
  | none =>
      have hrun : (l.truncate limits).calls = [] := by
        rw [truncate, hhandler, Option.map_none, truncateWith_of_uncalled hs _ _ (.inl rfl)]
      rw [hrun]
      exact ⟨Nat.zero_le 1, fun _ hcall => absurd hcall List.not_mem_nil, fun h => absurd rfl h,
        fun h => absurd h.1 Bool.false_ne_true⟩
  | some handler =>
      obtain ⟨actions, handled⟩ := handler
      cases hpasses : passes limits.outer l.newestCost with
      | false =>
          have hrun : (l.truncate limits).calls = [] := by
            rw [truncate, truncateWith_of_uncalled hs _ _ (.inr hpasses)]
          rw [hrun]
          exact ⟨Nat.zero_le 1, fun _ hcall => absurd hcall List.not_mem_nil,
            fun h => absurd rfl h, fun h => absurd h.2 Bool.false_ne_true⟩
      | true =>
          rw [(truncate_of_called hs hhandler hpasses).1]
          refine ⟨Nat.le_refl 1, fun call hcall => ?_, fun _ => ⟨rfl, rfl⟩,
            fun _ => List.cons_ne_nil _ _⟩
          rw [List.mem_singleton.mp hcall]

theorem acceptsRecords_truncate (hs : l.suspended = false) (limits : Limits) :
    (l.truncate limits).log.acceptsRecords = (l.truncate limits).log.isEnabled := by
  have hresumed := (CutTo.truncate l limits).suspended_eq.trans hs
  rw [acceptsRecords, hresumed, Bool.not_false, Bool.and_true, isEnabled]

/-- A truncation refuses to run within another one of the same log, and does nothing then. Otherwise
its handler is called at most once, with the cost of the newest group if it passes the outer limit.
Whatever the handler does meanwhile is confined, by other truncations too: it leaves the log as it
was, or empty or disabled. The truncation ends there if the handler has dealt with the matter, and
goes on with the log that it has left if not. An enabled log takes records again afterwards. -/
theorem truncate_withstands_handler (l : UndoLog) (limits : Limits) :
    (l.suspended = true → l.truncate limits = ⟨.error .reentrantTruncation, l, []⟩) ∧
      (l.suspended = false →
        (l.truncate limits).calls.length ≤ 1 ∧
        (∀ call ∈ (l.truncate limits).calls, call.size = l.newestCost) ∧
        ((l.truncate limits).calls ≠ [] ↔ limits.handler.isSome = true ∧
          ∃ limit, limits.outer = some limit ∧ limit < l.newestCost) ∧
        (∀ actions handled, limits.handler = some (.act actions handled) →
          (l.truncate limits).calls ≠ [] →
          let inside := runActions actions { l with suspended := true }
          let left := { inside.log with suspended := false }
          Withstands { l with suspended := true } actions ∧ l.Remains left ∧
            (l.truncate limits).calls = [⟨l.newestCost, inside.replies⟩] ∧
            Concludes limits l.newestCost handled left (l.truncate limits)) ∧
        (l.truncate limits).log.acceptsRecords = (l.truncate limits).log.isEnabled) := by
  refine ⟨fun hs => truncateWith_of_suspended hs _ _ _ _, fun hs => ?_⟩
  obtain ⟨honce, hsize, hcalled⟩ := calls_truncate hs limits
  refine ⟨honce, hsize, by rw [hcalled, passes_iff], ?_, acceptsRecords_truncate hs limits⟩
  intro actions handled hhandler hcalls inside left
  have hpasses := (hcalled.mp hcalls).2
  have henabled : isEnabled { l with suspended := true } = true := enabled_of_passes hpasses
  have hwithstands := withstands henabled rfl actions
  have hremains : l.Remains left := hwithstands.remains.resume hs
  exact ⟨hwithstands, hremains, truncate_of_called hs hhandler hpasses⟩

/-- A log with two groups, of which the newest one passes the limits below. -/
def costlyLog : UndoLog :=
  ((empty.record (.insert 0 4)).boundary).record (.delete 1 "bc".toList [])

/-- Limits with a handler that tries to add to the log and to cut it back, and then declines. -/
def meddlingLimits : Limits :=
  ⟨10, 40, some 60, some (.act [.record (.insert 0 1), .boundary,
    .truncate 1 2 (some 0) (some (.act [.clear] true))] false), by decide⟩

theorem costlyLog_withstands :
    costlyLog.suspended = false ∧ (costlyLog.truncate meddlingLimits).calls ≠ [] ∧
      (costlyLog.truncate meddlingLimits).log.records = [.delete 1 "bc".toList []] ∧
      (costlyLog.truncate meddlingLimits).log.acceptsRecords = true := by
  have hcost : 60 < costlyLog.newestCost := by decide +kernel
  obtain ⟨-, -, hcalled, hmeddled, haccepts⟩ :=
    (truncate_withstands_handler costlyLog meddlingLimits).2 rfl
  have hcalls := hcalled.mpr ⟨rfl, 60, rfl, hcost⟩
  obtain ⟨-, -, -, hconcludes⟩ := hmeddled _ _ rfl hcalls
  obtain ⟨-, hlog⟩ := hconcludes.declined rfl
  refine ⟨rfl, hcalls, ?_, ?_⟩
  · rw [hlog]
    decide +kernel
  · rw [haccepts, hlog]
    decide +kernel

end UndoLog

end Editing
