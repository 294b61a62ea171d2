import Editing.History.Limits
import Editing.History.UndoLog

/-!
# Truncation of an undo log

The newest group always stays. Going back from it, the log is cut at the first boundary where the
records so far cost more than the soft limit, or at the boundary before that one if they cost more
than the strong limit too.

While a handler runs, the log is suspended: it takes no records, and truncating it again is
refused.
-/

namespace Editing

/-- What a truncation did. -/
inductive Truncation where
  | unchanged
  /-- The handler dealt with a newest group of this cost. -/
  | handled (size : Nat)
  | severed (kept discarded : Nat)
deriving DecidableEq, Repr

/-- What an action on a log answers. -/
inductive LogReply where
  | done
  | flag (b : Bool)
  | count (n : Nat)
  | truncation (outcome : Except Error Truncation)

/-- A call of the handler: the cost of the newest group, and what its actions answered. -/
structure HandlerCall where
  size : Nat
  replies : List LogReply

/-- What a handler leaves behind. -/
structure HandlerRun where
  log : UndoLog
  replies : List LogReply
  /-- The calls of handlers within this one. -/
  calls : List HandlerCall
  handled : Bool

/-- The outcome of a truncation, with the log afterwards and the calls of handlers. -/
structure TruncationRun where
  outcome : Except Error Truncation
  log : UndoLog
  calls : List HandlerCall

namespace Record

/-- The newest group, with the boundary that closes it if there is one. -/
def newestGroup : List Record → List Record
  | boundary :: rs => boundary :: rs.takeWhile fun r => !r.isBoundary
  | rs => rs.takeWhile fun r => !r.isBoundary

/-- How many records stay when the ones given are met after `kept` records of cost `size`, where
`lastCut` is the last boundary so far; none when the log is not cut. -/
def keptAt (soft strong size kept lastCut : Nat) : List Record → Option Nat
  | [] => none
  | r :: rs =>
      if r.isBoundary then
        if strong < size then some lastCut
        else if soft < size then some kept
        else keptAt soft strong (size + r.cost) (kept + 1) kept rs
      else keptAt soft strong (size + r.cost) (kept + 1) lastCut rs

/-- How many of the newest records stay when a log is cut; none when it is not. -/
def keptWithin (soft strong : Nat) (rs : List Record) : Option Nat :=
  let group := newestGroup rs
  keptAt soft strong (totalCost group) group.length group.length (rs.drop group.length)

end Record

namespace UndoLog

/-- Cuts the log back to the limits, without asking a handler. -/
def cutBack (l : UndoLog) (soft strong : Nat) : Truncation × UndoLog :=
  match l.arena with
  | none => (.unchanged, l)
  | some a =>
      match Record.keptWithin soft strong a.records with
      | none => (.unchanged, l)
      | some kept =>
          match a.chain[kept - 1]? with
          | none => (.unchanged, l)
          | some (last, _) =>
              let (released, rest) := a.severAfter last
              let cursor := match l.cursor with
                | .resume i => if i ∈ released then .exhausted else .resume i
                | cursor => cursor
              (.severed rest.used released.length, { l with arena := some rest, cursor := cursor })

/-- Whether a cost passes an outer limit. -/
def passes (outer : Option Nat) (size : Nat) : Bool :=
  match outer with
  | none => false
  | some limit => limit < size

/-- Truncates the log. A newest group that passes the outer limit is first shown to the handler,
and unless it has dealt with the matter, the log that it leaves is cut back. -/
def truncateWith (l : UndoLog) (soft strong : Nat) (outer : Option Nat)
    (handler : Option (UndoLog → HandlerRun)) : TruncationRun :=
  if l.suspended then ⟨.error .reentrantTruncation, l, []⟩
  else
    match l.arena with
    | none => ⟨.ok .unchanged, l, []⟩
    | some a =>
        let size := Record.totalCost (Record.newestGroup a.records)
        match handler, passes outer size with
        | some handle, true =>
            let run := handle { l with suspended := true }
            let l := { run.log with suspended := false }
            let calls := run.calls ++ [⟨size, run.replies⟩]
            if run.handled then ⟨.ok (.handled size), l, calls⟩
            else
              let (outcome, l) := l.cutBack soft strong
              ⟨.ok outcome, l, calls⟩
        | _, _ =>
            let (outcome, l) := l.cutBack soft strong
            ⟨.ok outcome, l, []⟩

end UndoLog

/-- The log after an action, with its answer and the calls of handlers. -/
structure ActionRun where
  log : UndoLog
  reply : LogReply
  calls : List HandlerCall

mutual

def LogAction.run : LogAction → UndoLog → ActionRun
  | .record r, l => ⟨l.record r, .flag l.acceptsRecords, []⟩
  | .recordInsert pos length, l => ⟨l.recordInsert pos length, .flag l.acceptsRecords, []⟩
  | .boundary, l => ⟨l.boundary, .done, []⟩
  | .clear, l => ⟨l.clear, .done, []⟩
  | .disable, l => ⟨l.disable, .done, []⟩
  | .enable, l => ⟨l.enable, .done, []⟩
  | .isEnabled, l => ⟨l, .flag l.isEnabled, []⟩
  | .acceptsRecords, l => ⟨l, .flag l.acceptsRecords, []⟩
  | .isEmpty, l => ⟨l, .flag (l.length == 0), []⟩
  | .length, l => ⟨l, .count l.length, []⟩
  | .size, l => ⟨l, .count l.size, []⟩
  | .groupCount, l => ⟨l, .count l.groupCount, []⟩
  | .truncate soft strong outer handler, l =>
      match Limits.ofNumbers soft strong outer none with
      | .error e => ⟨l, .truncation (.error e), []⟩
      | .ok _ =>
          let handle := match handler with
            | none => none
            | some h => some fun l => h.run l
          let run := l.truncateWith soft strong outer handle
          ⟨run.log, .truncation run.outcome, run.calls⟩

/-- Carries out the actions of a handler on a log. -/
def Handler.run : Handler → UndoLog → HandlerRun
  | .act actions handled, l =>
      let run := runActions actions l
      { run with handled := handled }

/-- Carries out actions one after the other. -/
def runActions : List LogAction → UndoLog → HandlerRun
  | [], l => ⟨l, [], [], false⟩
  | a :: as, l =>
      let first := a.run l
      let rest := runActions as first.log
      ⟨rest.log, first.reply :: rest.replies, first.calls ++ rest.calls, rest.handled⟩

end

/-- Truncates a log to limits, with their handler. -/
def UndoLog.truncate (l : UndoLog) (limits : Limits) : TruncationRun :=
  l.truncateWith limits.soft limits.strong limits.outer (limits.handler.map Handler.run)

end Editing
