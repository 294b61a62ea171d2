import Editing.History.Arena

/-!
# Undo logs

The records of the changes to one text, with a cursor for consecutive undos: the first undo starts
from the newest group, the next ones walk further back, and any change recorded otherwise starts
over. A log can be disabled, which forgets its records, and it takes none while it is suspended.
-/

namespace Editing

/-- Where the next undo goes on. -/
inductive Cursor where
  /-- No undo is under way: start from the newest record. -/
  | idle
  /-- Go on with the record in this slot. -/
  | resume (slot : Nat)
  /-- The oldest record has been undone. -/
  | exhausted
deriving DecidableEq, Repr

/-- The undo log of a text; without an arena it is disabled. -/
structure UndoLog where
  arena : Option Arena
  suspended : Bool
  replaying : Bool
  cursor : Cursor
deriving Repr

namespace UndoLog

/-- An enabled log without records. -/
def empty : UndoLog := ⟨some .empty, false, false, .idle⟩

/-- A log that keeps no records. -/
def disabled : UndoLog := ⟨none, false, false, .idle⟩

instance : Inhabited UndoLog := ⟨empty⟩

def isEnabled (l : UndoLog) : Bool :=
  l.arena.isSome

/-- Whether the log is enabled and not suspended. -/
def acceptsRecords (l : UndoLog) : Bool :=
  l.arena.isSome && !l.suspended

def records (l : UndoLog) : List Record :=
  match l.arena with
  | none => []
  | some a => a.records

def length (l : UndoLog) : Nat :=
  match l.arena with
  | none => 0
  | some a => a.used

/-- The cost of all records. -/
def size (l : UndoLog) : Nat :=
  Record.totalCost l.records

def groupCount (l : UndoLog) : Nat :=
  Record.countGroups false l.records

/-- Forgets the records and takes no more. -/
def disable (l : UndoLog) : UndoLog :=
  { l with arena := none, cursor := .idle }

/-- Starts to take records again, if the log was disabled. -/
def enable (l : UndoLog) : UndoLog :=
  match l.arena with
  | none => { l with arena := some .empty, cursor := .idle }
  | some _ => l

def clear (l : UndoLog) : UndoLog :=
  { l with arena := l.arena.map fun _ => .empty, cursor := .idle }

/-- Appends a record, if the log accepts it; the cursor stays only during an undo. -/
def record (l : UndoLog) (r : Record) : UndoLog :=
  if l.suspended then l
  else
    match l.arena with
    | none => l
    | some a =>
        { l with arena := some (a.push r), cursor := if l.replaying then l.cursor else .idle }

/-- Appends an insertion. One that goes on where the newest record, an insertion too, ends is
merged into it. -/
def recordInsert (l : UndoLog) (pos length : Nat) : UndoLog :=
  if l.suspended then l
  else
    match l.arena.bind Arena.pop with
    | some (i, .insert start n, rest) =>
        if start + n = pos then
          let cursor := if l.cursor = .resume i then .exhausted else l.cursor
          { l with arena := some rest, cursor := cursor }.record (.insert start (n + length))
        else l.record (.insert pos length)
    | _ => l.record (.insert pos length)

/-- Closes the newest group; a log that is empty or ends with a boundary stays as it is. -/
def boundary (l : UndoLog) : UndoLog :=
  if l.suspended then l
  else
    match l.arena with
    | none => l
    | some a =>
        match a.newestRecord? with
        | none => l
        | some .boundary => l
        | some _ => { l with arena := some (a.push .boundary) }

/-- The slot where the next undo starts to look for a group. -/
def resumption (l : UndoLog) (a : Arena) : Option Nat :=
  match l.cursor with
  | .idle => a.newest
  | .resume i => some i
  | .exhausted => none

/-- The cursor behind a group, given the slots older than it: the first of them is a boundary. -/
def cursorBehind : List (Nat × Record) → Cursor
  | _ :: (i, _) :: _ => .resume i
  | _ => .exhausted

/-- Takes the next group to undo, newest record first, and moves the cursor past it. -/
def nextGroup (l : UndoLog) : Except Error (List Record) × UndoLog :=
  match l.arena with
  | none => (.error .undoDisabled, l)
  | some a =>
      let ahead := (a.chainFrom (l.resumption a)).dropWhile fun e => e.2.isBoundary
      let group := ahead.takeWhile fun e => !e.2.isBoundary
      let behind := ahead.dropWhile fun e => !e.2.isBoundary
      let l := { l with cursor := cursorBehind behind }
      if group.isEmpty then (.error .noFurtherUndo, l) else (.ok (group.map Prod.snd), l)

/-- From here on, records belong to an undo. -/
def beginReplay (l : UndoLog) : UndoLog := { l with replaying := true }

/-- From here on, records do not belong to an undo. -/
def endReplay (l : UndoLog) : UndoLog := { l with replaying := false }

/-- Puts the cursor back to where it was. -/
def rewind (l : UndoLog) (cursor : Cursor) : UndoLog := { l with cursor := cursor }

end UndoLog

end Editing
