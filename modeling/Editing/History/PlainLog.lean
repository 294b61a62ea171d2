import Editing.History.Truncation

/-!
# Undo logs as plain lists

What an undo log means, without its arena: a list of records, newest first, and a mark that counts
the oldest records which consecutive undos have still to take back. Every log has such a view, and
every operation on logs has its like on lists.
-/

namespace Editing

/-- Where the next undo goes on. -/
inductive Mark where
  | idle
  /-- So many of the oldest records are still to be undone. -/
  | remaining (count : Nat)
  | exhausted
deriving DecidableEq, Repr

/-- The mark once so many of the oldest records are gone. -/
def Mark.without (discarded : Nat) : Mark → Mark
  | .remaining count =>
      if count ≤ discarded then .exhausted else .remaining (count - discarded)
  | mark => mark

/-- An undo log as a list of records; without a list it is disabled. -/
structure PlainLog where
  history : Option (List Record)
  suspended : Bool
  replaying : Bool
  mark : Mark
deriving DecidableEq, Repr

namespace PlainLog

def empty : PlainLog := ⟨some [], false, false, .idle⟩

def disabled : PlainLog := ⟨none, false, false, .idle⟩

def records (l : PlainLog) : List Record :=
  l.history.getD []

def disable (l : PlainLog) : PlainLog :=
  { l with history := none, mark := .idle }

def enable (l : PlainLog) : PlainLog :=
  match l.history with
  | none => { l with history := some [], mark := .idle }
  | some _ => l

def clear (l : PlainLog) : PlainLog :=
  { l with history := l.history.map fun _ => [], mark := .idle }

def record (l : PlainLog) (r : Record) : PlainLog :=
  match l.suspended, l.history with
  | false, some rs =>
      { l with history := some (r :: rs), mark := if l.replaying then l.mark else .idle }
  | _, _ => l

def recordInsert (l : PlainLog) (pos length : Nat) : PlainLog :=
  match l.suspended, l.history with
  | false, some (.insert start n :: rs) =>
      if start + n = pos then
        let mark := if l.mark = .remaining (rs.length + 1) then .exhausted else l.mark
        { l with history := some rs, mark := mark }.record (.insert start (n + length))
      else l.record (.insert pos length)
  | _, _ => l.record (.insert pos length)

def boundary (l : PlainLog) : PlainLog :=
  match l.suspended, l.history with
  | false, some (.boundary :: _) => l
  | false, some (r :: rs) => { l with history := some (.boundary :: r :: rs) }
  | _, _ => l

/-- The records that consecutive undos have still to take back. -/
def ahead (l : PlainLog) (rs : List Record) : List Record :=
  match l.mark with
  | .idle => rs
  | .remaining count => rs.drop (rs.length - count)
  | .exhausted => []

/-- The mark behind a group, given the records older than it: the first of them is a boundary. -/
def markBehind : List Record → Mark
  | _ :: r :: rs => .remaining (r :: rs).length
  | _ => .exhausted

def nextGroup (l : PlainLog) : Except Error (List Record) × PlainLog :=
  match l.history with
  | none => (.error .undoDisabled, l)
  | some rs =>
      let ahead := (l.ahead rs).dropWhile Record.isBoundary
      let group := ahead.takeWhile fun r => !r.isBoundary
      let l := { l with mark := markBehind (ahead.dropWhile fun r => !r.isBoundary) }
      if group.isEmpty then (.error .noFurtherUndo, l) else (.ok group, l)

def beginReplay (l : PlainLog) : PlainLog := { l with replaying := true }

def endReplay (l : PlainLog) : PlainLog := { l with replaying := false }

def rewind (l : PlainLog) (mark : Mark) : PlainLog := { l with mark := mark }

def cutBack (l : PlainLog) (soft strong : Nat) : Truncation × PlainLog :=
  match l.history with
  | none => (.unchanged, l)
  | some rs =>
      match Record.keptWithin soft strong rs with
      | none => (.unchanged, l)
      | some kept =>
          let discarded := rs.length - kept
          (.severed kept discarded,
            { l with history := some (rs.take kept), mark := Mark.without discarded l.mark })

def isEnabled (l : PlainLog) : Bool :=
  l.history.isSome

def acceptsRecords (l : PlainLog) : Bool :=
  l.history.isSome && !l.suspended

def length (l : PlainLog) : Nat :=
  l.records.length

def size (l : PlainLog) : Nat :=
  Record.totalCost l.records

def groupCount (l : PlainLog) : Nat :=
  Record.countGroups false l.records

/-- What a log answers to an action of a handler, and what becomes of it. It is suspended meanwhile,
so that it takes no records, and cutting it back is refused once the limits are in order. -/
def act (l : PlainLog) : LogAction → LogReply × PlainLog
  | .record r => (.flag l.acceptsRecords, l.record r)
  | .recordInsert pos length => (.flag l.acceptsRecords, l.recordInsert pos length)
  | .boundary => (.done, l.boundary)
  | .clear => (.done, l.clear)
  | .disable => (.done, l.disable)
  | .enable => (.done, l.enable)
  | .isEnabled => (.flag l.isEnabled, l)
  | .acceptsRecords => (.flag l.acceptsRecords, l)
  | .isEmpty => (.flag (l.length == 0), l)
  | .length => (.count l.length, l)
  | .size => (.count l.size, l)
  | .groupCount => (.count l.groupCount, l)
  | .truncate soft strong _ _ =>
      (.truncation (.error
        (if soft < strong then .reentrantTruncation else .limitsOrder soft strong)), l)

def actAll : PlainLog → List LogAction → List LogReply × PlainLog
  | l, [] => ([], l)
  | l, a :: as =>
      let (reply, l) := l.act a
      let (replies, l) := l.actAll as
      (reply :: replies, l)

/-- The outcome of a truncation with the calls of its handler, and the log afterwards. -/
def truncate (l : PlainLog) (limits : Limits) :
    (Except Error Truncation × List HandlerCall) × PlainLog :=
  if l.suspended then ((.error .reentrantTruncation, []), l)
  else
    let size := Record.totalCost (Record.newestGroup l.records)
    match limits.handler, UndoLog.passes limits.outer size with
    | some (.act actions handled), true =>
        let (replies, l) := { l with suspended := true }.actAll actions
        let l := { l with suspended := false }
        if handled then ((.ok (.handled size), [⟨size, replies⟩]), l)
        else
          let (outcome, l) := l.cutBack limits.soft limits.strong
          ((.ok outcome, [⟨size, replies⟩]), l)
    | _, _ =>
        let (outcome, l) := l.cutBack limits.soft limits.strong
        ((.ok outcome, []), l)

end PlainLog

/-- A cursor as a count of the records from its slot on. -/
def Cursor.mark (a : Arena) : Cursor → Mark
  | .idle => .idle
  | .resume i => .remaining (a.chainFrom (some i)).length
  | .exhausted => .exhausted

/-- What an undo log means. -/
def UndoLog.plain (l : UndoLog) : PlainLog :=
  { history := l.arena.map Arena.records
    suspended := l.suspended
    replaying := l.replaying
    mark := match l.arena with
      | none => .idle
      | some a => Cursor.mark a l.cursor }

end Editing
