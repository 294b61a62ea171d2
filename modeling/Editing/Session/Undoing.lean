import Editing.Session.Changes

/-!
# Undoing changes and cutting logs back

An undo replays the records of one group, newest first, as changes that are recorded in turn. When
it fails on the way, what has been replayed stays and is closed as a group, and the cursor is put
back to where it was. From an idle cursor the next undo then begins with the newest group: it takes
back what has been replayed, if anything has. From any other it tries the same group again.
-/

namespace Editing.Act

/-- Changes the undo log of the text that a view shows. -/
def changeLog (view : ViewId) (f : UndoLog → UndoLog) : Act Unit :=
  changeShown view fun d => { d with log := f d.log }

def closeGroup (view : ViewId) : Act Unit := changeLog view UndoLog.boundary

def disableUndo (view : ViewId) : Act Unit := changeLog view UndoLog.disable

def enableUndo (view : ViewId) : Act Unit := changeLog view UndoLog.enable

def clearUndo (view : ViewId) : Act Unit := changeLog view UndoLog.clear

/-- Takes back the change of one record. -/
def replay (view root : ViewId) : Record → Act Unit
  | .insert pos length => do
      ask (·.refuseHidden view pos (pos + length))
      makeChange view (.delete pos (pos + length))
      let _ ← goto view pos
      pure ()
  | .delete pos text adjustments => do
      ask (·.refuseHidden view pos pos)
      let d ← ask (·.document root)
      insertAt view pos text
      changeShown root fun shown => (d.readjustable pos adjustments).foldl Document.readjust shown
      let _ ← goto view pos
      pure ()
  | .property start stop key value => do
      ask (·.refuseHidden view start stop)
      call (.restore root start stop key value)
  | .boundary => pure ()

def replayAll (view root : ViewId) : List Record → Act Unit
  | [] => pure ()
  | r :: rs => do
      replay view root r
      replayAll view root rs

/-- Takes the next group to undo from the log, which is closed first. -/
def takeGroup (root : ViewId) : Act (List Record) := do
  let d ← ask (·.document root)
  let (group, log) := d.log.boundary.nextGroup
  changeLog root fun _ => log
  give group

/-- Undoes one group of changes through a view. -/
def undo (view : ViewId) : Act Unit := do
  let root ← ask (·.rootOf view)
  let d ← ask (·.document root)
  if !d.log.isEnabled then throw .undoDisabled
  let group ← takeGroup root
  changeLog root UndoLog.beginReplay
  let outcome ← attempt (replayAll view root group)
  changeLog root fun l => l.endReplay.boundary
  match outcome with
  | .ok () => pure ()
  | .error e => do
      changeLog root (·.rewind d.log.cursor)
      throw e

/-- Makes the calls of a handler known. -/
def callHandlers : List HandlerCall → Act Unit
  | [] => pure ()
  | c :: cs => do
      call (.handler c)
      callHandlers cs

/-- Cuts the log of a root back to the limits. -/
def truncateLog (root : ViewId) : Act Truncation := do
  let d ← ask (·.document root)
  let run := d.log.truncate (← get).editor.limits
  changeLog root fun _ => run.log
  callHandlers run.calls
  give run.outcome

/-- Cuts the undo log of a view's text back to the limits; its root is current meanwhile. -/
def truncateUndo (view : ViewId) : Act Truncation := do
  let root ← ask (·.rootOf view)
  withCurrent root (truncateLog root)

def truncateAll : List ViewId → Act (List (ViewId × Truncation))
  | [] => pure []
  | root :: roots => do
      let outcome ← truncateUndo root
      let rest ← truncateAll roots
      return (root, outcome) :: rest

/-- Cuts the undo log of every live root back. -/
def reclaim : Act (List (ViewId × Truncation)) := do
  truncateAll (← get).editor.rootList

def setLimits (limits : Limits) : Act Unit :=
  change fun e => { e with limits := limits }

/-- Sets or removes the handler of logs that grow too large. -/
def setHandler (handler : Option Handler) : Act Unit :=
  change fun e => { e with limits := { e.limits with handler := handler } }

end Editing.Act
